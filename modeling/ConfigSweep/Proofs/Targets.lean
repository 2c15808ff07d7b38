import ConfigSweep.Proofs.Keeping

/-!
# Merges keep their targets

A merge fails for what a patch asks, and never because the node that it works on went away: each
node stays what the merge opened it as, whatever is merged below it and whatever calls yield. So an
instruction of a script always meets a list, at a position of that list.
-/

namespace ConfigSweep

/-- No call fails as a merge that lost its node would. -/
def Evaluator.KeepsTargets (evaluator : Evaluator) : Prop :=
  ∀ call argument f, evaluator call argument = .error f → ¬ f.cause.TargetLost

/-- The position that the instruction is carried out at, if any, is one of a list of that length. -/
def Edit.InBounds (length : Nat) : Edit → Prop
  | .insert requested _ =>
    ∀ position, Position.forInsertion requested length = .ok position → position ≤ length
  | .overwrite requested _ =>
    ∀ position, Position.ofItem requested length = .ok position → position < length
  | .remove requested =>
    ∀ position, Position.ofItem requested length = .ok position → position < length

theorem Edit.inBounds (edit : Edit) (length : Nat) : edit.InBounds length := by
  cases edit with
  | insert requested value => exact fun _ done => Position.forInsertion_le done
  | overwrite requested value => exact fun _ done => Position.ofItem_lt done
  | remove requested => exact fun _ done => Position.ofItem_lt done

namespace Tree

mutual

/-- Plain data is refused for a reserved key only. -/
theorem checkPlainAt_eq_error {f : Failure} : ∀ (t : Tree) (trail : Trail),
    t.checkPlainAt trail = .error f → ∃ key trail, f.cause = .reservedKey key trail
  | .list items, trail, failed => checkPlainItems_eq_error items 0 trail failed
  | .mapping entries, trail, failed => checkPlainEntries_eq_error entries trail failed
  | .null, _, failed => by cases failed
  | .bool _, _, failed => by cases failed
  | .int _, _, failed => by cases failed
  | .float _, _, failed => by cases failed
  | .str _, _, failed => by cases failed

theorem checkPlainItems_eq_error {f : Failure} : ∀ (items : List Tree) (position : Nat)
    (trail : Trail), checkPlainItems items position trail = .error f →
      ∃ key trail, f.cause = .reservedKey key trail
  | [], _, _, failed => by cases failed
  | t :: ts, position, trail, failed => by
    rcases bind_eq_error.mp failed with here | ⟨_, -, later⟩
    · exact checkPlainAt_eq_error t _ here
    · exact checkPlainItems_eq_error ts (position + 1) trail later

theorem checkPlainEntries_eq_error {f : Failure} : ∀ (entries : List (String × Tree))
    (trail : Trail), checkPlainEntries entries trail = .error f →
      ∃ key trail, f.cause = .reservedKey key trail
  | [], _, failed => by cases failed
  | (key, t) :: rest, trail, failed => by
    rw [checkPlainEntries] at failed
    split at failed
    · obtain rfl := Except.error.inj failed
      exact ⟨key, trail, rfl⟩
    · rcases bind_eq_error.mp failed with here | ⟨_, -, later⟩
      · exact checkPlainAt_eq_error t _ here
      · exact checkPlainEntries_eq_error rest trail later

end

end Tree

theorem Patch.brings_anything (p : Patch) : p.Everywhere (Patch.Brings fun _ => True) := by
  induction p using Patch.children_induction with
  | node p ih =>
    refine .intro ?_ ih
    cases p with
    | scalar value => exact fun _ _ => trivial
    | edits script payload =>
      exact ⟨fun _ _ _ _ => trivial, fun _ _ _ => .inr fun _ _ => trivial⟩
    | _ => trivial

namespace Merge

variable {evaluator : Evaluator}

section Anything

variable {allowed : Cause → Prop}

/-- If nothing is asked of good nodes, all that is left to say is how a merge may fail. -/
theorem keeping_anything (regular : ∀ {cause : Cause}, ¬ cause.TargetLost → allowed cause)
    (refuses : ∀ {call argument f}, evaluator call argument = .error f → allowed f.cause) :
    Keeping evaluator allowed fun _ => True :=
  ⟨trivial, fun _ _ _ => trivial, fun _ _ => trivial, regular, fun _ => trivial, refuses⟩

theorem anyChildren (t : Tree) : t.AllChildren fun _ => True :=
  fun _ _ => trivial

theorem node_anything (keeping : Keeping evaluator allowed fun _ => True) (p : Patch) :
    Contract allowed (fun _ => True) (node evaluator p) fun _ => True :=
  (keeping.node p.brings_anything).weaken (fun t _ => anyChildren t) fun _ ok => ok

end Anything

/-- The merge of a patch into a base does not fail for a lost node. -/
theorem targetLost_of_mergeInto (keeps : evaluator.KeepsTargets) {patch : Patch} {base : Tree}
    {f : Failure} (failed : patch.mergeInto evaluator base = .error f) : ¬ f.cause.TargetLost := by
  have keeping : Keeping evaluator (fun cause => ¬ cause.TargetLost) fun _ => True :=
    keeping_anything (fun regular => regular) fun failed => keeps _ _ _ failed
  rcases bind_eq_error.mp failed with inMerge | ⟨merged, -, inCheck⟩
  · exact (keeping.node patch.brings_anything).fails .root rfl (anyChildren base) inMerge
  · rcases bind_eq_error.mp inCheck with located | ⟨_, -, done⟩
    · obtain ⟨g, refused, cause⟩ := located_eq_error located
      obtain ⟨key, trail, reserved⟩ := Tree.checkPlainAt_eq_error merged .root refused
      rw [cause, reserved]
      nofun
    · cases done

/-- After any instructions of a script the list that it edits is still a list. -/
theorem items_of_run {payload : KeyedPatch Patch} {focus : Focus} {root opened reached : Tree}
    {script : Script} (opens : openScript focus root = .ok opened)
    (done : script.run evaluator (fun focus root => keyed evaluator payload focus root) focus opened
      = .ok reached) : ∃ items, focus.items reached = .ok items := by
  have keeping : Keeping evaluator (fun _ => True) fun _ => True :=
    keeping_anything (fun _ => trivial) fun _ => trivial
  obtain ⟨shown, reveals, -⟩ := bind_eq_ok.mp opens
  obtain ⟨t, there⟩ := Attached.revealed reveals
  obtain ⟨u, replaced, isList⟩ := keeping.openScript.leaves focus there (anyChildren t) opens
  have merges : Contract (fun _ => True) (fun _ => True)
      (fun focus root => keyed evaluator payload focus root) fun _ => True :=
    (keeping.keyed fun p _ => keeping.node p.brings_anything).weaken (fun t _ => anyChildren t)
      fun _ _ => trivial
  have runs : Contract (fun _ => True) (ListOver fun _ => True)
      (fun focus root => script.run evaluator (fun focus root => keyed evaluator payload focus root)
        focus root) (ListOver fun _ => True) :=
    keeping.run (fun _ _ _ _ => trivial) fun _ _ _ => merges
  obtain ⟨v, replaced', -, items, rfl⟩ :=
    runs.leaves focus (Tree.get?_replace? replaced) isList done
  refine ⟨items, bind_eq_ok.mpr ⟨.list items, ?_, rfl⟩⟩
  exact Focus.read_eq_ok.mpr (Tree.get?_replace? replaced')

/-- Where a list is built for slots, all of them are in it. -/
theorem slots_within {slots : SparseList Patch} (ascending : slots.Ascending) {focus : Focus}
    {root t opened : Tree} {length : Nat} (there : root.get? focus.path = some t)
    (leaf : t.isLeaf = true) (done : openSlots focus slots root = .ok (length, opened)) :
    ∀ slot ∈ slots.slots, slot.1 < length := by
  obtain ⟨⟨shown, root'⟩, reveals, done⟩ := bind_eq_ok.mp done
  obtain ⟨_, reads, reveals⟩ := bind_eq_ok.mp reveals
  obtain rfl := Option.some.inj (there.symm.trans (Focus.read_eq_ok.mp reads))
  obtain ⟨u, uncovers, reveals⟩ := bind_eq_ok.mp reveals
  obtain ⟨changed, -, same⟩ := bind_eq_ok.mp reveals
  obtain ⟨rfl, rfl⟩ := Prod.mk.inj (Except.ok.inj same)
  have plain : t.reveal = .ok t := by
    cases t with
    | mapping m => cases leaf
    | _ => rfl
  rw [plain] at uncovers
  obtain rfl := Except.ok.inj uncovers
  have builds : ∃ gapless : Unit, slots.checkGapless = .ok gapless ∧ length = slots.size := by
    cases t with
    | list items => cases leaf
    | mapping m => cases leaf
    | _ =>
      obtain ⟨gapless, checked, done⟩ := bind_eq_ok.mp done
      obtain ⟨filled, -, done⟩ := bind_eq_ok.mp done
      exact ⟨gapless, checked, (Prod.mk.inj (Except.ok.inj done)).1.symm⟩
  obtain ⟨⟨⟩, gapless, rfl⟩ := builds
  exact SparseList.lt_size_of_gapless ascending gapless

/-- No merge of a patch fails for a lost node, if no call does. Every instruction of a script is
carried out on a list, at a position of it, and patches for the slots of a new list are merged into
items that it has. -/
theorem targets_kept (keeps : evaluator.KeepsTargets) :
    (∀ (base : Tree) (patch : Patch) (f : Failure), patch.mergeInto evaluator base = .error f →
      ¬ f.cause.TargetLost) ∧
    (∀ (payload : KeyedPatch Patch) (before : Script) (edit : Edit) (focus : Focus)
      (root opened reached : Tree), openScript focus root = .ok opened →
      before.run evaluator (fun focus root => keyed evaluator payload focus root) focus opened
        = .ok reached →
      ∃ items, focus.items reached = .ok items ∧ edit.InBounds items.length) ∧
    (∀ (slots : SparseList Patch) (focus : Focus) (root t opened : Tree) (length : Nat),
      slots.Ascending → root.get? focus.path = some t → t.isLeaf = true →
      openSlots focus slots root = .ok (length, opened) → ∀ slot ∈ slots.slots, slot.1 < length) := by
  refine ⟨fun _ _ _ failed => targetLost_of_mergeInto keeps failed, ?_, ?_⟩
  · intro payload before edit focus root opened reached opens done
    obtain ⟨items, there⟩ := items_of_run opens done
    exact ⟨items, there, edit.inBounds items.length⟩
  · intro slots focus root t opened length ascending there leaf done
    exact slots_within ascending there leaf done

section Wrapped

/-- Every call yields its argument as the only item of a list in disguise. -/
def wrapping : Evaluator :=
  fun _ argument => .ok (.mapping [(Position.token 0, argument)])

def widths : Tree :=
  .mapping [("widths", .list [.int 1, .int 2])]

/-- The payload makes a mapping of the new item, which a group replaces by a list. -/
def wrappedPayload : KeyedPatch Patch where
  entries := [("width", .scalar (.int 7))]
  groups := [("sweep_group", .fromRoot (.named "wrap"))]

def moved : Script :=
  [.remove 0, .insert (-1) none]

def wrapped : Tree :=
  .list [.mapping [("widths", .list [.int 2, .mapping [("width", .int 7)]])]]

theorem targets_kept_wrapped :
    wrapping.KeepsTargets ∧
    (∃ f, (Patch.keyed { entries := [("widths", .edits (moved ++ [.overwrite 5 none])
        wrappedPayload)] }).mergeInto wrapping widths = .error f ∧
      f.cause = .indexOutOfRange 5 2 ∧ ¬ f.cause.TargetLost) ∧
    moved.run wrapping (fun focus root => keyed wrapping wrappedPayload focus root)
      (Focus.root.atKey "widths") widths = .ok (.mapping [("widths", .list [.int 2, wrapped])]) ∧
    (∃ items, (Focus.root.atKey "widths").items (.mapping [("widths", .list [.int 2, wrapped])])
        = .ok items ∧ (Edit.overwrite 1 none).InBounds items.length) ∧
    ∀ slot ∈ [(0, Patch.scalar .null), (1, .scalar .null)], slot.1 < 2 := by
  have keeps : wrapping.KeepsTargets := fun _ _ _ failed => nomatch failed
  obtain ⟨failures, lists, slots⟩ := targets_kept keeps
  have failed : ∃ f, (Patch.keyed { entries := [("widths", .edits (moved ++ [.overwrite 5 none])
      wrappedPayload)] }).mergeInto wrapping widths = .error f ∧ f.cause = .indexOutOfRange 5 2 :=
    ⟨_, by with_unfolding_all rfl, rfl⟩
  have runs : moved.run wrapping (fun focus root => keyed wrapping wrappedPayload focus root)
      (Focus.root.atKey "widths") widths = .ok (.mapping [("widths", .list [.int 2, wrapped])]) := by
    with_unfolding_all rfl
  refine ⟨keeps, ?_, runs, ?_, ?_⟩
  · obtain ⟨f, fails, cause⟩ := failed
    exact ⟨f, fails, cause, failures _ _ f fails⟩
  · exact lists wrappedPayload moved _ _ widths widths _ (by with_unfolding_all rfl) runs
  · exact slots ⟨[(0, .scalar .null), (1, .scalar .null)]⟩ .root .null .null
      (.list [.null, .null]) 2 (by simp [SparseList.Ascending]) rfl rfl (by with_unfolding_all rfl)

end Wrapped

end Merge

end ConfigSweep
