import ConfigSweep.Proofs.LiteralScript
import ConfigSweep.Proofs.Locality
import ConfigSweep.Proofs.PrintedScript

/-!
# Instructions without a value

An instruction without a value takes the payload of its script, which is merged into one item: into
a new one, which starts as null, or into the one that is there. The other items stay as they are.
-/

namespace ConfigSweep

section Lists

variable {α : Type} {items : List α} {position : Nat}

theorem set_insertIdx (within : position ≤ items.length) (a b : α) :
    (items.insertIdx position a).set position b = items.insertIdx position b := by
  induction position generalizing items with
  | zero => rfl
  | succ position ih =>
    cases items with
    | nil => cases within
    | cons first rest =>
      rw [List.insertIdx_succ_cons, List.insertIdx_succ_cons, List.set_cons_succ,
        ih (Nat.le_of_succ_le_succ within)]

end Lists

theorem LiteralEdit.place_le {index : Int} {length : Nat} (fits : -length ≤ index ∧ index ≤ length) :
    place length index ≤ length := by
  unfold place
  split <;> omega

theorem LiteralEdit.place_lt {index : Int} {length : Nat} (fits : -length ≤ index ∧ index < length) :
    place length index < length := by
  unfold place
  split <;> omega

/-- An instruction that takes its value from the payload. -/
inductive PayloadEdit where
  | insert (index : Int)
  | overwrite (index : Int)

namespace PayloadEdit

/-- The instruction as part of a script. -/
def edit : PayloadEdit → Edit
  | .insert index => .insert index none
  | .overwrite index => .overwrite index none

def index : PayloadEdit → Int
  | .insert index => index
  | .overwrite index => index

/-- The instruction with a value of its own. -/
def literal (value : Tree) : PayloadEdit → LiteralEdit
  | .insert index => .insert index value
  | .overwrite index => .overwrite index value

def Fits (length : Nat) (e : PayloadEdit) : Prop :=
  (e.literal .null).Fits length

instance (length : Nat) (e : PayloadEdit) : Decidable (e.Fits length) :=
  inferInstanceAs (Decidable ((e.literal .null).Fits length))

/-- The item that the payload is merged into. -/
def item (items : List Tree) : PayloadEdit → Tree
  | .insert _ => .null
  | .overwrite index => (items[LiteralEdit.place items.length index]?).getD .null

/-- The items with what becomes of that item. -/
def put (items : List Tree) (value : Tree) (e : PayloadEdit) : List Tree :=
  (e.literal value).applyTo items

/-- Where the item stands then. -/
def place (length : Nat) : PayloadEdit → Nat
  | .insert index => if index = -1 then length else LiteralEdit.place length index
  | .overwrite index => LiteralEdit.place length index

variable {e : PayloadEdit} {items : List Tree}

theorem getElem?_put (fits : e.Fits items.length) (value : Tree) :
    (e.put items value)[e.place items.length]? = some value := by
  cases e with
  | insert index =>
    rw [put, literal, LiteralEdit.applyTo, place]
    split
    · simp
    · next other =>
      have within := LiteralEdit.place_le (fits.resolve_left other)
      rw [List.getElem?_insertIdx_self, if_pos within]
  | overwrite index => exact List.getElem?_set_self (LiteralEdit.place_lt fits)

theorem map_put {α : Type} (f : Tree → α) {u v : Tree} (same : f u = f v) :
    (e.put items u).map f = (e.put items v).map f := by
  cases e with
  | insert index =>
    simp only [put, literal, LiteralEdit.applyTo]
    split
    · simp [same]
    · simp [List.map_insertIdx, same]
  | overwrite index => simp [put, literal, LiteralEdit.applyTo, same]

/-- An instruction is read back if its index fits a word. -/
theorem ofTree_toTree (e : PayloadEdit)
    (word : -Word.signedBound ≤ e.index ∧ e.index < Word.signedBound) :
    Edit.ofTree e.edit.toTree = .ok e.edit := by
  have counts : (Tree.int e.index).index? = some e.index := if_pos word
  refine Edit.ofTree_iff.mpr ?_
  cases e with
  | insert index => exact .insert rfl rfl (.position counts)
  | overwrite index => exact .overwrite rfl rfl (.position counts)

end PayloadEdit

namespace Merge

open PayloadEdit

variable {e : PayloadEdit} {items : List Tree} {r : Tree}

/-- What a local operation does at an item of a list is what it does to the item alone. -/
theorem Local.at_item {op : Focus → Tree → Outcome Tree} (isLocal : Local op) {position : Nat}
    (within : position < items.length) :
    op (Focus.root.atIndex position) (.list items) = .ok r ↔
      ∃ u, op .root items[position] = .ok u ∧ r = .list (items.set position u) := by
  have child : (Tree.list items).child? (.index position) = some items[position] :=
    List.getElem?_eq_getElem within
  have there : (Tree.list items).get? (Focus.root.atIndex position).path = some items[position] :=
    Option.bind_eq_some_iff.mpr ⟨_, child, rfl⟩
  have replaced : ∀ u, Tree.replace? u (Focus.root.atIndex position).path (.list items)
      = some (.list (items.set position u)) := fun u =>
    Option.bind_eq_some_iff.mpr ⟨_, child, rfl⟩
  rw [isLocal.alone there]
  simp only [replaced, Option.some.injEq, eq_comm]

theorem write_root (value root : Tree) : Focus.root.write value root = .ok value :=
  rfl

/-- An instruction without a value puts into the list what the payload makes of the item. -/
theorem apply_payload (evaluator : Evaluator) {op : PayloadMerge} (isLocal : Local op)
    (fits : e.Fits items.length) :
    e.edit.apply evaluator op .root items (.list items) = .ok r ↔
      ∃ u, op .root (e.item items) = .ok u ∧ r = .list (e.put items u) := by
  cases e with
  | insert index =>
    have inserts : ∀ position, position ≤ items.length →
        (op (Focus.root.atIndex position) (.list (items.insertIdx position .null)) = .ok r ↔
          ∃ u, op .root .null = .ok u ∧ r = .list (items.insertIdx position u)) := by
      intro position within
      have inside : position < (items.insertIdx position .null).length := by
        rw [List.length_insertIdx_of_le_length within]
        omega
      rw [isLocal.at_item inside]
      simp only [List.getElem_insertIdx_self, set_insertIdx within]
    simp only [edit, Edit.apply, Position.forInsertion_eq, put, literal, LiteralEdit.applyTo, item]
    by_cases last : index = -1
    · simpa [last, bind, Except.bind, write_root] using inserts items.length (Nat.le_refl _)
    · have bounds := fits.resolve_left last
      simpa [last, bounds, bind, Except.bind, write_root] using inserts _ (LiteralEdit.place_le bounds)
  | overwrite index =>
    have bounds : -(items.length : Int) ≤ index ∧ index < items.length := fits
    have within := LiteralEdit.place_lt bounds
    simp only [edit, Edit.apply, Position.ofItem_eq, if_pos bounds, put, literal,
      LiteralEdit.applyTo, item]
    rw [List.getElem?_eq_getElem within, Option.getD_some]
    exact isLocal.at_item within

/-- A script of one such instruction changes one item by the payload and leaves the others. -/
theorem node_payload {evaluator : Evaluator} {payload : KeyedPatch Patch}
    (locals : ∀ p ∈ payload.patches, p.Local evaluator) (fits : e.Fits items.length) :
    node evaluator (.edits [e.edit] payload) .root (.list items) = .ok r ↔
      ∃ u, keyed evaluator payload .root (e.item items) = .ok u ∧ r = .list (e.put items u) := by
  have there : (Tree.list items).get? Focus.root.path = some (.list items) := rfl
  have opens : openScript .root (.list items) = .ok (.list items) :=
    bind_eq_ok.mpr ⟨_, revealed_stays there rfl, rfl⟩
  have runs : ∀ merged, Script.run evaluator (fun focus root => keyed evaluator payload focus root)
      .root [e.edit] (.list items) = .ok merged ↔
        ∃ u, keyed evaluator payload .root (e.item items) = .ok u ∧ merged = .list (e.put items u) := by
    intro merged
    rw [← apply_payload evaluator (Patch.keyed_local locals) fits, Script.run, items_of_list there]
    show (e.edit.apply evaluator _ .root items (.list items) >>= Except.ok) = .ok merged ↔ _
    rw [bind_eq_ok]
    simp
  rw [node, opens, settle_eq_ok]
  constructor
  · rintro ⟨merged, ran, reveals⟩
    obtain ⟨u, makes, rfl⟩ := (runs merged).mp ran
    exact ⟨u, makes, (Except.ok.inj reveals).symm⟩
  · rintro ⟨u, makes, rfl⟩
    exact ⟨_, (runs _).mpr ⟨u, makes, rfl⟩, rfl⟩

end Merge

end ConfigSweep
