import ConfigSweep.Proofs.IndexedMerge
import ConfigSweep.Proofs.Path

/-!
# Operations at a node

A merge is composed of few steps: it reads and writes the node in focus, goes on at a child, and
asks for values. What holds of these steps and is kept when they are composed holds of the merge of
every patch, if it holds where patches ask for calls on the root.
-/

namespace ConfigSweep

/-- The instruction carries no call. -/
def Edit.CallFree : Edit → Prop
  | .insert _ value => ∀ call, value ≠ some (.computed call)
  | .overwrite _ value => ∀ call, value ≠ some (.computed call)
  | .remove _ => True

namespace Merge

/-- The operation fails where the focus leads nowhere. -/
def Attached (op : Focus → Tree → Outcome Tree) : Prop :=
  ∀ focus root r, op focus root = .ok r → ∃ t, root.get? focus.path = some t

/-- What holds of the steps of a merge and is kept when they are composed. -/
structure Compositional (holds : (Focus → Tree → Outcome Tree) → Prop) : Prop where
  congr : ∀ {op next}, holds op →
    (∀ focus root r, next focus root = .ok r ↔ op focus root = .ok r) → holds next
  ok : holds fun _ root => .ok root
  fail : ∀ cause : Focus → Tree → Cause, holds fun focus root => ConfigSweep.fail (cause focus root)
  write : ∀ value, holds fun focus root => focus.write value root
  bind : ∀ {op next}, holds op → holds next → holds fun focus root => op focus root >>= next focus
  /-- What does not look at the tree is done before. -/
  given : ∀ {α : Type} {next : α → Focus → Tree → Outcome Tree} (outcome : Outcome α),
    (∀ a, holds (next a)) → holds fun focus root => outcome >>= fun a => next a focus root
  read : ∀ {next : Tree → Focus → Tree → Outcome Tree}, (∀ t, holds (next t)) →
    holds fun focus root => focus.read root >>= fun t => next t focus root
  under : ∀ {op}, holds op → ∀ label, holds fun focus root => op (focus.under label) root
  /-- What is done at a child is done at the node, if it fails where there is no child. -/
  child : ∀ {op}, holds op → Attached op → ∀ step {down : Focus → Focus},
    (∀ focus, (down focus).path = focus.path ++ [step]) → holds fun focus root => op (down focus) root

/-- It also holds where the values of calls on the root are used. -/
def HoldsAtCalls (evaluator : Evaluator) (holds : (Focus → Tree → Outcome Tree) → Prop) : Prop :=
  ∀ (call : Call) {next : Tree → Focus → Tree → Outcome Tree}, (∀ value, holds (next value)) →
    holds fun focus root => evaluator call root >>= fun value => next value focus root

section Attachment

theorem Attached.revealed {focus : Focus} {root : Tree} {shown : Tree × Tree}
    (reveals : focus.revealed root = .ok shown) : ∃ t, root.get? focus.path = some t := by
  obtain ⟨t, reads, -⟩ := bind_eq_ok.mp reveals
  exact ⟨t, Focus.read_eq_ok.mp reads⟩

theorem Attached.write {value : Tree} {focus : Focus} {root r : Tree}
    (done : focus.write value root = .ok r) : ∃ t, root.get? focus.path = some t :=
  Tree.exists_get? (Focus.write_eq_ok.mp done)

variable (evaluator : Evaluator)

theorem keyed_attached (patch : KeyedPatch Patch) : Attached (keyed evaluator patch) := by
  obtain ⟨entries, groups, upserts⟩ := patch
  intro focus root r done
  obtain ⟨opened, opens, -⟩ := bind_eq_ok.mp done
  obtain ⟨shown, reveals, -⟩ := bind_eq_ok.mp opens
  exact Attached.revealed reveals

/-- A patch can be merged only into a node that is there. -/
theorem node_attached (p : Patch) : Attached (node evaluator p) := by
  intro focus root r done
  cases p with
  | scalar value =>
    obtain ⟨merged, writes, -⟩ := settle_eq_ok.mp done
    exact Attached.write writes
  | fromRoot call =>
    obtain ⟨merged, writes, -⟩ := settle_eq_ok.mp done
    obtain ⟨value, -, writes⟩ := bind_eq_ok.mp writes
    exact Attached.write writes
  | fromPrevious call =>
    obtain ⟨merged, reads, -⟩ := settle_eq_ok.mp done
    obtain ⟨t, reads, -⟩ := bind_eq_ok.mp reads
    exact ⟨t, Focus.read_eq_ok.mp reads⟩
  | list patches =>
    obtain ⟨merged, opens, -⟩ := settle_eq_ok.mp done
    obtain ⟨opened, opens, -⟩ := bind_eq_ok.mp opens
    obtain ⟨shown, reveals, -⟩ := bind_eq_ok.mp opens
    exact Attached.revealed reveals
  | sparse slots =>
    obtain ⟨merged, opens, -⟩ := settle_eq_ok.mp done
    obtain ⟨opened, opens, -⟩ := bind_eq_ok.mp opens
    obtain ⟨shown, reveals, -⟩ := bind_eq_ok.mp opens
    exact Attached.revealed reveals
  | edits script payload =>
    obtain ⟨merged, opens, -⟩ := settle_eq_ok.mp done
    obtain ⟨opened, opens, -⟩ := bind_eq_ok.mp opens
    obtain ⟨shown, reveals, -⟩ := bind_eq_ok.mp opens
    exact Attached.revealed reveals
  | keyed patch =>
    obtain ⟨merged, merges, -⟩ := settle_eq_ok.mp done
    exact keyed_attached evaluator patch focus root merged merges

end Attachment

namespace Compositional

variable {evaluator : Evaluator} {holds : (Focus → Tree → Outcome Tree) → Prop}
  (steps : Compositional holds) {op : Focus → Tree → Outcome Tree}

include steps

section Opening

theorem revealed {next : Focus → Tree × Tree → Outcome Tree}
    (each : ∀ t, holds fun focus root => next focus (t, root)) :
    holds fun focus root => focus.revealed root >>= next focus := by
  have whole : holds fun focus root => focus.read root >>= fun t =>
      Stopped.outcome t.reveal >>= fun shown => focus.write shown root >>= fun root =>
        next focus (shown, root) :=
    steps.read fun t => steps.given _ fun shown => steps.bind (steps.write shown) (each shown)
  refine steps.congr whole fun focus root r => ?_
  unfold Focus.revealed
  simp only [bind_assoc, pure_bind]

theorem reveal : holds Focus.reveal :=
  steps.revealed fun _ => steps.ok

theorem settle (held : holds op) (p : Patch) : holds fun focus root => settle focus p (op focus root) := by
  refine steps.congr (steps.bind held steps.reveal) fun focus root r => ?_
  unfold Merge.settle
  rw [Patch.located_eq_ok]
  rfl

theorem openMapping (noEntries : Bool) : holds fun focus root => openMapping focus noEntries root := by
  refine steps.revealed fun t => ?_
  dsimp only
  cases t.shape with
  | mapping => exact steps.ok
  | leaf => exact steps.write _
  | list =>
    cases noEntries with
    | true => exact steps.ok
    | false => exact steps.fail _

theorem ensureKey (key : String) : holds fun focus root => ensureKey focus key root := by
  refine steps.read fun t => ?_
  cases t with
  | mapping entries =>
    dsimp only
    split
    · exact steps.ok
    · exact steps.write _
  | _ => exact steps.fail _

theorem openList (length : Nat) : holds fun focus root => openList focus length root := by
  refine steps.revealed fun t => ?_
  cases t with
  | list items =>
    dsimp only
    split
    · exact steps.ok
    · exact steps.fail _
  | mapping entries => exact steps.fail _
  | _ => exact steps.write _

theorem openScript : holds fun focus root => openScript focus root := by
  refine steps.revealed fun t => ?_
  dsimp only
  cases t.shape with
  | list => exact steps.ok
  | _ => exact steps.fail _

end Opening

section Lists

theorem items {ps : List Patch} (each : ∀ p ∈ ps, holds (node evaluator p)) (position : Nat) :
    holds fun focus root => items evaluator ps position focus root := by
  induction ps generalizing position with
  | nil => exact steps.ok
  | cons p rest ih =>
    rw [List.forall_mem_cons] at each
    exact steps.bind (steps.child each.1 (node_attached evaluator p) (.index position) fun _ => rfl)
      (ih each.2 (position + 1))

theorem slots {slots : List (Nat × Patch)} (each : ∀ slot ∈ slots, holds (node evaluator slot.2))
    (length : Nat) : holds fun focus root => Merge.slots evaluator slots length focus root := by
  induction slots with
  | nil => exact steps.ok
  | cons slot rest ih =>
    obtain ⟨position, p⟩ := slot
    rw [List.forall_mem_cons] at each
    unfold Merge.slots
    split
    · exact steps.fail _
    · exact steps.bind
        (steps.child each.1 (node_attached evaluator p) (.index position) fun _ => rfl) (ih each.2)

theorem values {entries : List (String × Patch)} (each : ∀ e ∈ entries, holds (node evaluator e.2)) :
    holds fun focus root => values evaluator entries focus root := by
  induction entries with
  | nil => exact steps.ok
  | cons e rest ih =>
    obtain ⟨key, p⟩ := e
    rw [List.forall_mem_cons] at each
    exact steps.bind (steps.ensureKey key) (steps.bind
      (steps.child each.1 (node_attached evaluator p) (.key key) fun _ => rfl) (ih each.2))

theorem revisits {groups : List (String × Patch)} (each : ∀ e ∈ groups, holds (node evaluator e.2)) :
    holds fun focus root => revisits evaluator groups focus root := by
  induction groups with
  | nil => exact steps.ok
  | cons e rest ih =>
    rw [List.forall_mem_cons] at each
    exact steps.bind (steps.under each.1 e.1) (ih each.2)

theorem ordered {upserts : List (Option String × Patch)}
    (each : ∀ u ∈ upserts, holds (node evaluator u.2)) (place : Nat) :
    holds fun focus root => ordered evaluator upserts place focus root := by
  induction upserts generalizing place with
  | nil => exact steps.ok
  | cons u rest ih =>
    rw [List.forall_mem_cons] at each
    exact steps.bind (steps.under each.1 (KeyedPatch.upsertLabel place u.1)) (ih each.2 (place + 1))

theorem keyed {patch : KeyedPatch Patch} (entries : ∀ e ∈ patch.entries, holds (node evaluator e.2))
    (groups : ∀ e ∈ patch.groups, holds (node evaluator e.2))
    (upserts : ∀ u ∈ patch.upserts, holds (node evaluator u.2)) :
    holds fun focus root => keyed evaluator patch focus root := by
  obtain ⟨_, _, _⟩ := patch
  exact steps.bind (steps.openMapping _) (steps.bind (steps.values entries)
    (steps.bind (steps.revisits groups) (steps.ordered upserts 0)))

end Lists

section Scripts

variable {payload : PayloadMerge}

theorem apply (held : holds payload) (attached : Attached payload) {edit : Edit}
    (calls : edit.CallFree ∨ HoldsAtCalls evaluator holds) (items : List Tree) :
    holds fun focus root => edit.apply evaluator payload focus items root := by
  have below : ∀ position, holds fun focus root => payload (focus.atIndex position) root :=
    fun position => steps.child held attached (.index position) fun _ => rfl
  have computed : ∀ {value : EditValue} (put : Tree → Tree),
      (∀ call, some value ≠ some (.computed call)) ∨ HoldsAtCalls evaluator holds →
        holds fun focus root => value.compute evaluator root >>= fun v => focus.write (put v) root := by
    intro value put calls
    cases value with
    | literal v => exact steps.write (put v)
    | computed call =>
      rcases calls with free | atCalls
      · exact absurd rfl (free call)
      · exact atCalls call fun value => steps.write (put value)
  cases edit with
  | insert requested value =>
    refine steps.given _ fun position => ?_
    cases value with
    | none => exact steps.bind (steps.write _) (below position)
    | some value => exact computed _ calls
  | overwrite requested value =>
    refine steps.given _ fun position => ?_
    cases value with
    | none => exact below position
    | some value => exact computed _ calls
  | remove requested => exact steps.given _ fun position => steps.write _

theorem run (held : holds payload) (attached : Attached payload) {script : Script}
    (calls : ∀ edit ∈ script, edit.CallFree ∨ HoldsAtCalls evaluator holds) :
    holds fun focus root => script.run evaluator payload focus root := by
  induction script with
  | nil => exact steps.ok
  | cons edit rest ih =>
    rw [List.forall_mem_cons] at calls
    unfold Script.run Focus.items
    simp only [bind_assoc]
    exact steps.read fun t => steps.given _ fun items =>
      steps.bind (steps.apply held attached calls.1 items) (ih calls.2)

end Scripts

section Nodes

theorem scalar (value : Tree) : holds (node evaluator (.scalar value)) :=
  steps.settle (steps.write value) _

theorem fromPrevious (call : Call) : holds (node evaluator (.fromPrevious call)) :=
  steps.settle (steps.read fun _ => steps.given _ fun value => steps.write value) _

theorem fromRoot (atCalls : HoldsAtCalls evaluator holds) (call : Call) :
    holds (node evaluator (.fromRoot call)) :=
  steps.settle (atCalls call fun value => steps.write value) _

theorem list {ps : List Patch} (each : ∀ p ∈ ps, holds (node evaluator p)) :
    holds (node evaluator (.list ps)) :=
  steps.settle (steps.bind (steps.openList _) (steps.items each 0)) _

theorem sparse {slots : List (Nat × Patch)} (each : ∀ slot ∈ slots, holds (node evaluator slot.2)) :
    holds (node evaluator (.sparse ⟨slots⟩)) := by
  have whole : holds fun focus root => openSlots focus ⟨slots⟩ root >>= fun opened =>
      Merge.slots evaluator slots opened.1 focus opened.2 := by
    unfold openSlots
    simp only [bind_assoc]
    refine steps.revealed fun t => ?_
    dsimp only
    cases t with
    | list items => exact steps.slots each items.length
    | mapping entries => exact steps.fail _
    | _ =>
      simp only [bind_assoc, pure_bind]
      exact steps.given _ fun _ => steps.bind (steps.write _) (steps.slots each _)
  exact steps.settle whole _

theorem edits {script : Script}
    (calls : ∀ edit ∈ script, edit.CallFree ∨ HoldsAtCalls evaluator holds)
    {payload : KeyedPatch Patch}
    (held : holds fun focus root => Merge.keyed evaluator payload focus root) :
    holds (node evaluator (.edits script payload)) :=
  steps.settle (steps.bind steps.openScript
    (steps.run held (keyed_attached evaluator payload) calls)) _

end Nodes

end Compositional

end Merge

end ConfigSweep
