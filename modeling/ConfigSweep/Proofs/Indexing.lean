import ConfigSweep.Proofs.Overrides
import ConfigSweep.Proofs.SparseList

/-!
# Lists as mappings from position tokens

`Tree.indexed` writes every list of a tree as the mapping from position tokens to its items. This is
all that a tree without axes goes through in the passes of an empty assignment, and revealing the
lists in disguise undoes it.
-/

namespace ConfigSweep

namespace Tree

mutual

/-- The property holds for the node and all nodes below it. -/
def Everywhere (p : Tree → Prop) : Tree → Prop
  | .list items => p (.list items) ∧ EverywhereItems p items
  | .mapping entries => p (.mapping entries) ∧ EverywhereEntries p entries
  | leaf => p leaf

def EverywhereItems (p : Tree → Prop) : List Tree → Prop
  | [] => True
  | t :: ts => t.Everywhere p ∧ EverywhereItems p ts

def EverywhereEntries (p : Tree → Prop) : List (String × Tree) → Prop
  | [] => True
  | (_, t) :: rest => t.Everywhere p ∧ EverywhereEntries p rest

end

mutual

/-- The tree with every list as a mapping from position tokens. -/
def indexed : Tree → Tree
  | .list items => .mapping (indexedItems items 0)
  | .mapping entries => .mapping (indexedEntries entries)
  | leaf => leaf

def indexedItems : List Tree → Nat → Mapping Tree
  | [], _ => []
  | t :: ts, position => (Position.token position, indexed t) :: indexedItems ts (position + 1)

def indexedEntries : List (String × Tree) → Mapping Tree
  | [] => []
  | (key, t) :: rest => (key, indexed t) :: indexedEntries rest

end

section Decidability

variable (p : Tree → Prop) [DecidablePred p]

mutual

def decideEverywhere : (t : Tree) → Decidable (t.Everywhere p)
  | .list items =>
    have := decideEverywhereItems items
    inferInstanceAs (Decidable (p (.list items) ∧ EverywhereItems p items))
  | .mapping entries =>
    have := decideEverywhereEntries entries
    inferInstanceAs (Decidable (p (.mapping entries) ∧ EverywhereEntries p entries))
  | .null => inferInstanceAs (Decidable (p .null))
  | .bool b => inferInstanceAs (Decidable (p (.bool b)))
  | .int n => inferInstanceAs (Decidable (p (.int n)))
  | .float x => inferInstanceAs (Decidable (p (.float x)))
  | .str text => inferInstanceAs (Decidable (p (.str text)))

def decideEverywhereItems : (items : List Tree) → Decidable (EverywhereItems p items)
  | [] => .isTrue trivial
  | t :: ts =>
    have := decideEverywhere t
    have := decideEverywhereItems ts
    inferInstanceAs (Decidable (t.Everywhere p ∧ EverywhereItems p ts))

def decideEverywhereEntries :
    (entries : List (String × Tree)) → Decidable (EverywhereEntries p entries)
  | [] => .isTrue trivial
  | (_, t) :: rest =>
    have := decideEverywhere t
    have := decideEverywhereEntries rest
    inferInstanceAs (Decidable (t.Everywhere p ∧ EverywhereEntries p rest))

end

instance (t : Tree) : Decidable (t.Everywhere p) :=
  decideEverywhere p t

instance (t : Tree) : Decidable (t = .list []) :=
  match t with
  | .list [] => .isTrue rfl
  | .list (_ :: _) | .mapping _ | .null | .bool _ | .int _ | .float _ | .str _ =>
    .isFalse (by simp)

end Decidability

section Everywhere

variable {p q : Tree → Prop}

theorem Everywhere.here {t : Tree} (holds : t.Everywhere p) : p t := by
  cases t with
  | list items => exact holds.1
  | mapping entries => exact holds.1
  | _ => exact holds

theorem everywhereItems_iff {items : List Tree} :
    EverywhereItems p items ↔ ∀ t ∈ items, t.Everywhere p := by
  induction items with
  | nil => simp [EverywhereItems]
  | cons t ts ih => simp [EverywhereItems, ih]

theorem everywhereEntries_iff {entries : List (String × Tree)} :
    EverywhereEntries p entries ↔ ∀ e ∈ entries, e.2.Everywhere p := by
  induction entries with
  | nil => simp [EverywhereEntries]
  | cons e rest ih => simp [EverywhereEntries, ih]

theorem Everywhere.child {t : Tree} (holds : t.Everywhere p) :
    ∀ c ∈ t.children, c.2.Everywhere p := by
  intro c member
  cases t with
  | list items =>
    obtain ⟨i, -, found⟩ := mem_numbered.mp (show (c.1, c.2) ∈ numbered items 0 from member)
    exact everywhereItems_iff.mp holds.2 c.2 (List.mem_of_getElem? found)
  | mapping entries =>
    obtain ⟨e, inside, rfl⟩ := List.mem_map.mp member
    exact everywhereEntries_iff.mp holds.2 e inside
  | _ => simp [children] at member

/-- What holds everywhere in a tree holds everywhere below a path. -/
theorem Everywhere.outside {t d : Tree} (holds : t.Everywhere p) (distinct : t.Distinct) {path : Path}
    (found : t.outside? path = some d) : d.Everywhere p := by
  induction path generalizing t with
  | nil => exact Option.some.inj found ▸ holds
  | cons step rest ih =>
    rw [outside?] at found
    split at found
    · cases found
    · obtain ⟨c, toChild, inside⟩ := Option.bind_eq_some_iff.mp found
      have child := (mem_children distinct).mpr toChild
      exact ih (holds.child _ child) (distinct_child distinct _ child) inside

/-- No mapping in the tree is marked as an axis. -/
abbrev Unmarked (t : Tree) : Prop :=
  t.Everywhere fun node => node.field? Keyword.sweep = none

theorem Unmarked.axisDeclaration? {t : Tree} (unmarked : t.Unmarked) :
    t.axisDeclaration? = none := by
  have here := unmarked.here
  cases t with
  | mapping entries =>
    have absent : Mapping.has Keyword.sweep entries = false := by
      unfold Mapping.has
      rw [show Mapping.get? Keyword.sweep entries = none from here]
      rfl
    simp [Tree.axisDeclaration?, absent]
  | _ => rfl

theorem Unmarked.axisLocations {t : Tree} (unmarked : t.Unmarked) : t.axisLocations = [] := by
  induction t using children_induction with
  | node t ih =>
    refine List.eq_nil_iff_forall_not_mem.mpr fun l member => ?_
    obtain ⟨c, child, ⟨-, axis⟩ | ⟨-, rest, -, inside⟩⟩ :=
      mem_axisLocations_iff.mp (show (l.1, l.2) ∈ t.axisLocations from member)
    · rw [Unmarked.axisDeclaration? (unmarked.child c child)] at axis
      cases axis
    · rw [ih c child (unmarked.child c child)] at inside
      cases inside

end Everywhere

section Encoding

mutual

/-- Without marks there is nothing to take out. -/
theorem withoutAxes_eq_indexed : ∀ t : Tree, t.Unmarked → t.withoutAxes = t.indexed
  | .list items, unmarked => by
    rw [withoutAxes, withChoices, indexed, withoutAxes_items items 0 unmarked.2]
  | .mapping entries, unmarked => by
    rw [withoutAxes, withChoices, indexed, withoutAxes_entries entries unmarked.2]
  | .null, _ => rfl
  | .bool _, _ => rfl
  | .int _, _ => rfl
  | .float _, _ => rfl
  | .str _, _ => rfl

theorem withoutAxes_items : ∀ (items : List Tree) (position : Nat),
    EverywhereItems (fun node => node.field? Keyword.sweep = none) items →
      itemsWithChoices (fun _ => none) items position = indexedItems items position
  | [], _, _ => rfl
  | t :: ts, position, unmarked => by
    have first : t.withChoices (fun _ => none) = t.indexed := withoutAxes_eq_indexed t unmarked.1
    rw [itemsWithChoices, indexedItems, withoutAxes_items ts (position + 1) unmarked.2, first,
      survivor, Unmarked.axisDeclaration? unmarked.1]
    rfl

theorem withoutAxes_entries : ∀ entries : List (String × Tree),
    EverywhereEntries (fun node => node.field? Keyword.sweep = none) entries →
      entriesWithChoices (fun _ => none) entries = indexedEntries entries
  | [], _ => rfl
  | (key, t) :: rest, unmarked => by
    have first : t.withChoices (fun _ => none) = t.indexed := withoutAxes_eq_indexed t unmarked.1
    rw [entriesWithChoices, indexedEntries, withoutAxes_entries rest unmarked.2, first, survivor,
      Unmarked.axisDeclaration? unmarked.1]
    rfl

end

theorem keys_indexedEntries (entries : List (String × Tree)) :
    Mapping.keys (indexedEntries entries) = Mapping.keys entries := by
  induction entries with
  | nil => rfl
  | cons e rest ih => rw [indexedEntries, Mapping.keys_cons, Mapping.keys_cons, ih]

theorem get?_indexedEntries (key : String) (entries : List (String × Tree)) :
    Mapping.get? key (indexedEntries entries) = (Mapping.get? key entries).map indexed := by
  induction entries with
  | nil => rfl
  | cons e rest ih =>
    rw [indexedEntries, Mapping.get?_cons, Mapping.get?_cons, ih]
    split <;> rfl

theorem length_indexedEntries (entries : List (String × Tree)) :
    (indexedEntries entries).length = entries.length := by
  have keys := congrArg List.length (keys_indexedEntries entries)
  simpa [Mapping.keys] using keys

theorem indexedItems_eq (items : List Tree) (start : Nat) :
    indexedItems items start = Mapping.ofItems (items.map indexed) start := by
  induction items generalizing start with
  | nil => rfl
  | cons t ts ih => rw [indexedItems, ih, List.map_cons, Mapping.ofItems_cons]

theorem indexedEntries_eq (entries : List (String × Tree)) :
    indexedEntries entries = entries.map fun e => (e.1, e.2.indexed) := by
  induction entries with
  | nil => rfl
  | cons e rest ih => rw [indexedEntries, ih, List.map_cons]

end Encoding

section Revealing

/-- No list in the tree is empty. -/
abbrev ListsFilled (t : Tree) : Prop :=
  t.Everywhere fun node => node ≠ .list []

/-- The lengths of all lists in the tree fit a word, as those of lists in memory do. -/
abbrev ListsFit (t : Tree) : Prop :=
  t.Everywhere fun node => (node.items?.getD []).length < Word.bound

/-- Items under position tokens are revealed to be a list. -/
theorem reveal_ofItems {items : List Tree} (filled : items ≠ []) (fits : items.length < Word.bound) :
    (Tree.mapping (Mapping.ofItems items 0)).reveal = .ok (.list items) := by
  have count : (Mapping.ofItems items 0).length = items.length := by simp [Mapping.ofItems]
  have inside : ((Mapping.ofItems items 0).filterMap fun e => Position.ofToken? e.1).find?
      ((Mapping.ofItems items 0).length ≤ ·) = none := by
    rw [List.find?_eq_none]
    intro position member
    obtain ⟨e, among, token⟩ := List.mem_filterMap.mp member
    obtain ⟨⟨t, i⟩, listed, rfl⟩ := List.mem_map.mp among
    have small := (List.mem_zipIdx listed).2.1
    have read : Position.ofToken? (Position.token i) = some i := Position.ofToken?_token (by omega)
    obtain rfl := Option.some.inj (read.symm.trans token)
    rw [count, decide_eq_true_eq]
    omega
  rw [reveal, if_pos (Mapping.isPositional_ofItems filled (by omega))]
  dsimp only
  rw [inside]
  dsimp only
  rw [SparseList.ofEntries_ofItems fits, SparseList.toList_slotsOf]

theorem lift_eq_ok {σ τ : Type} {whole : σ → τ} {part : Except (Stopped σ) σ} {t : τ} :
    Stopped.lift whole part = .ok t ↔ ∃ s, part = .ok s ∧ whole s = t := by
  cases part with
  | error stopped => simp [Stopped.lift]
  | ok s => simp [Stopped.lift]

theorem length_revealItems {items revealed : List Tree} (done : revealItems items = .ok revealed) :
    revealed.length = items.length := by
  induction items generalizing revealed with
  | nil =>
    obtain rfl := Except.ok.inj done
    rfl
  | cons t ts ih =>
    rw [revealItems] at done
    split at done
    · cases done
    · obtain ⟨rest, later, rfl⟩ := lift_eq_ok.mp done
      rw [List.length_cons, List.length_cons, ih later]

mutual

/-- Revealing the indexed tree yields what revealing the tree yields. -/
theorem revealAll_indexed : ∀ (t revealed : Tree), t.ListsFilled → t.ListsFit →
    t.revealAll = .ok revealed → t.indexed.revealAll = .ok revealed
  | .list items, revealed, filled, fit, done => by
    obtain ⟨shown, inner, rfl⟩ := lift_eq_ok.mp done
    have entries := revealItems_indexed items shown filled.2 fit.2 inner 0
    have size := length_revealItems inner
    have nonempty : shown ≠ [] := by
      rintro rfl
      have empty : items = [] := List.length_eq_zero_iff.mp size.symm
      exact filled.1 (empty ▸ rfl)
    have short : shown.length < Word.bound := size ▸ fit.1
    rw [indexed, revealAll, entries]
    exact reveal_ofItems nonempty short
  | .mapping entries, revealed, filled, fit, done => by
    rw [revealAll] at done
    cases inner : revealEntries entries with
    | error stopped => rw [inner] at done; cases done
    | ok shown =>
      rw [inner] at done
      rw [indexed, revealAll, revealEntries_indexed entries shown filled.2 fit.2 inner]
      exact done
  | .null, _, _, _, done => done
  | .bool _, _, _, _, done => done
  | .int _, _, _, _, done => done
  | .float _, _, _, _, done => done
  | .str _, _, _, _, done => done

theorem revealItems_indexed : ∀ items revealed : List Tree,
    EverywhereItems (fun node => node ≠ .list []) items →
      EverywhereItems (fun node => (node.items?.getD []).length < Word.bound) items →
        revealItems items = .ok revealed → ∀ start,
          revealEntries (indexedItems items start) = .ok (Mapping.ofItems revealed start)
  | [], _, _, _, done, _ => by
    obtain rfl := Except.ok.inj done
    rfl
  | t :: ts, _, filled, fit, done, start => by
    rw [revealItems] at done
    split at done
    · cases done
    · next first here =>
      obtain ⟨rest, later, rfl⟩ := lift_eq_ok.mp done
      have rest := revealItems_indexed ts rest filled.2 fit.2 later (start + 1)
      rw [indexedItems, revealEntries, revealAll_indexed t first filled.1 fit.1 here, rest,
        Mapping.ofItems_cons]
      rfl

theorem revealEntries_indexed : ∀ entries revealed : List (String × Tree),
    EverywhereEntries (fun node => node ≠ .list []) entries →
      EverywhereEntries (fun node => (node.items?.getD []).length < Word.bound) entries →
        revealEntries entries = .ok revealed →
          revealEntries (indexedEntries entries) = .ok revealed
  | [], _, _, _, done => done
  | (key, t) :: rest, _, filled, fit, done => by
    rw [revealEntries] at done
    split at done
    · cases done
    · next first here =>
      obtain ⟨later, inner, rfl⟩ := lift_eq_ok.mp done
      rw [indexedEntries, revealEntries, revealAll_indexed t first filled.1 fit.1 here,
        revealEntries_indexed rest later filled.2 fit.2 inner]
      rfl

end

end Revealing

end Tree

end ConfigSweep
