import ConfigSweep.Proofs.Overlay

/-!
# Overlays along paths

Every place of a merged tree comes from the base or from a patch of plain data. Which of them it is can
be told by a walk down the patch: a walk that ends in the patch finds the scalar or a container there,
a walk that leaves the patch at a container finds what the base has, and there is nothing below a scalar
of the patch.
-/

namespace ConfigSweep

namespace Tree

/-- The part of a tree of plain data that a step leads to. In a list in disguise it is the value of
the last key for a position. -/
def part? : Tree → Step → Option Tree
  | .mapping m, .index position =>
    if Mapping.isPositional m then (Mapping.lastAt? position m).map Prod.snd else none
  | .mapping m, .key name => if Mapping.isPositional m then none else Mapping.get? name m
  | t, step => t.child? step

/-- How a walk down a tree of plain data ends. -/
inductive Standing where
  /-- At a scalar. -/
  | scalar (value : Tree)
  /-- At a list or a mapping. -/
  | container
  /-- With steps left below a scalar. -/
  | belowScalar
  /-- With steps left at a list or a mapping that lacks the next one. -/
  | outside
  deriving Repr

/-- How the walk along a path ends. -/
def standing : Path → Tree → Standing
  | [], t => if t.isLeaf then .scalar t else .container
  | step :: rest, t =>
    if t.isLeaf then .belowScalar
    else match t.part? step with
      | some part => standing rest part
      | none => .outside

/-- What is left at a place of the patch, where the base had `before`. -/
def Standing.Leaves (before after : Option Tree) : Standing → Prop
  | .scalar value => after = some value
  | .container => ∃ t, after = some t ∧ t.isLeaf = false
  | .belowScalar => after = none
  | .outside => after = before

/-- A part is a child, perhaps of a list in disguise. -/
theorem exists_child_of_part? {t part : Tree} {step : Step} (there : t.part? step = some part) :
    ∃ c ∈ t.children, c.2 = part := by
  cases t with
  | list items =>
    cases step with
    | key name => cases there
    | index position => exact ⟨_, mem_numbered.mpr ⟨position, rfl, there⟩, rfl⟩
  | mapping m =>
    cases step with
    | index position =>
      rw [part?] at there
      split at there
      · obtain ⟨e, last, rfl⟩ := Option.map_eq_some_iff.mp there
        exact ⟨_, List.mem_map_of_mem (Patch.mem_of_lastAt? last), rfl⟩
      · cases there
    | key name =>
      rw [part?] at there
      split at there
      · cases there
      · exact ⟨_, List.mem_map_of_mem (Mapping.mem_of_get? there), rfl⟩
  | _ => cases step <;> cases there

end Tree

namespace Patch

section Parts

/-- A part of the tree and the patch that it is read as. -/
abbrev PartRead : Option Tree → Option Patch → Prop :=
  Option.Rel fun t p => ofTree t = .ok p

theorem PartRead.of_some {t : Tree} {b : Option Patch} (read : PartRead (some t) b) :
    ∃ p, b = some p ∧ ofTree t = .ok p := by
  cases read with
  | some reads => exact ⟨_, rfl, reads⟩

theorem PartRead.of_none {b : Option Patch} (read : PartRead none b) : b = none := by
  cases read
  rfl

variable {entries : Mapping Tree} {named : List (String × Patch)} (read : EntriesFrom entries named)

include read

theorem partRead_lastAt? (position : Nat) :
    PartRead ((Mapping.lastAt? position entries).map Prod.snd)
      ((Mapping.lastAt? position named).map Prod.snd) := by
  have both := Mapping.rel_lastAt? (fun _ _ both => both.1) read position
  generalize Mapping.lastAt? position entries = a at both ⊢
  generalize Mapping.lastAt? position named = b at both ⊢
  cases both with
  | none => exact .none
  | some here => exact .some here.2

end Parts

theorem DataFrom.partRead {t : Tree} {p : Patch} (from' : DataFrom t p) (step : Step) :
    PartRead (t.part? step) (p.place? step) := by
  cases from' with
  | scalar leaf =>
    cases t with
    | list items => cases leaf
    | mapping m => cases leaf
    | _ => cases step <;> exact .none
  | list read =>
    cases step with
    | key name => exact .none
    | index position => exact forall₂_getElem? read position
  | sparse positional read =>
    cases step with
    | key name =>
      rw [Tree.part?, if_pos positional]
      exact .none
    | index position =>
      rw [Tree.part?, if_pos positional, place?, SparseList.at?_ofEntries]
      exact partRead_lastAt? read position
  | keyed plain read =>
    have single : ¬ Mapping.isPositional _ = true := Bool.eq_false_iff.mp plain
    cases step with
    | key name =>
      rw [Tree.part?, if_neg single]
      exact Mapping.rel_get? read name
    | index position =>
      rw [Tree.part?, if_neg single]
      exact .none

section Steps

variable {patch t u : Tree} {p : Patch} (laid : Overlays p t u) (from' : DataFrom patch p)

include laid from'

theorem Overlays.eq_of_scalar (leaf : patch.isLeaf = true) : u = patch := by
  cases from' with
  | scalar =>
    cases laid with
    | leaf => rfl
    | node reveals fits => exact fits.elim
  | _ => cases leaf

theorem Overlays.isLeaf (container : patch.isLeaf = false) : u.isLeaf = false := by
  cases from' with
  | scalar leaf =>
    rw [leaf] at container
    cases container
  | _ =>
    cases laid with
    | node reveals fits =>
      cases u with
      | list items => rfl
      | mapping m => rfl
      | _ => exact fits.elim

/-- One step below a container there is the part of the patch laid over what the node had there, or
what the node had if the patch has no part. -/
theorem Overlays.child (container : patch.isLeaf = false) (plain : t.isDisguised = false) (step : Step) :
    (∃ part q v, patch.part? step = some part ∧ ofTree part = .ok q ∧ u.child? step = some v ∧
      Overlays q ((t.child? step).getD .null) v) ∨
    (patch.part? step = none ∧ u.child? step = t.child? step) := by
  have parts := from'.partRead step
  cases laid with
  | leaf =>
    cases from' with
    | scalar leaf =>
      rw [leaf] at container
      cases container
  | node reveals fits settled there placed kept =>
    obtain rfl := Except.ok.inj ((Tree.reveal_of_not_disguised plain).symm.trans reveals)
    cases isPart : patch.part? step with
    | some part =>
      rw [isPart] at parts
      obtain ⟨q, here, reads⟩ := parts.of_some
      obtain ⟨v, toChild⟩ := there step q here
      exact .inl ⟨part, q, v, rfl, reads, toChild, placed step q v here toChild⟩
    | none =>
      rw [isPart] at parts
      exact .inr ⟨rfl, kept step parts.of_none⟩

end Steps

/-- What a patch leaves at a place is what the walk down its tree tells. -/
theorem Overlays.leaves {patch u : Tree} {p : Patch} (before : Option Tree)
    (laid : Overlays p (before.getD .null) u) (reads : ofTree patch = .ok p)
    (plain : patch.Everywhere Tree.PlainData) (undisguised : (before.getD .null).Undisguised)
    (path : Path) :
    (patch.standing path).Leaves (before.bind (Tree.get? path)) (u.get? path) := by
  -- Below a value that the base lacks, the patch was laid over null: hence the optional `before`.
  induction path generalizing patch p before u with
  | nil =>
    have from' := dataFrom_of_ofTreeAt plain.here reads
    cases leaf : patch.isLeaf with
    | true =>
      rw [Tree.standing, if_pos leaf]
      exact congrArg some (laid.eq_of_scalar from' leaf)
    | false =>
      rw [Tree.standing, if_neg (by simp [leaf])]
      exact ⟨u, rfl, laid.isLeaf from' leaf⟩
  | cons step rest ih =>
    have from' := dataFrom_of_ofTreeAt plain.here reads
    have base : before.bind (Tree.get? (step :: rest))
        = ((before.getD .null).child? step).bind (Tree.get? rest) := by
      cases before with
      | some t => rfl
      | none => rw [Option.getD_none, Tree.child?_leaf rfl, Option.bind_none, Option.bind_none]
    rw [base, Tree.get?]
    cases leaf : patch.isLeaf with
    | true =>
      rw [Tree.standing, if_pos leaf, laid.eq_of_scalar from' leaf, Tree.child?_leaf leaf]
      rfl
    | false =>
      rw [Tree.standing, if_neg (by simp [leaf])]
      rcases laid.child from' leaf undisguised.here step with
        ⟨part, q, v, isPart, reads', toChild, below⟩ | ⟨noPart, same⟩
      · rw [isPart, toChild]
        obtain ⟨c, child, rfl⟩ := Tree.exists_child_of_part? isPart
        refine ih _ below reads' (plain.child c child) ?_
        cases toBase : (before.getD .null).child? step with
        | none => exact rfl
        | some t => exact Tree.AllChildren.child? undisguised.child toBase
      · rw [noPart, same]
        rfl

end Patch

namespace Tree

/-- If a patch of plain data is merged into a base without lists in disguise, then at every path the
merged tree has what the walk down the patch tells: the scalar of the patch, nothing below one, a
container where the patch has one, and what the base has where the patch has no part. -/
theorem merge_leaves (evaluator : Evaluator) (base patch merged : Tree)
    (undisguised : base.Undisguised) (distinct : patch.Distinct)
    (unreserved : patch.Everywhere Unreserved) (silent : patch.Silent)
    (done : merge evaluator base patch = .ok merged) (path : Path) :
    (patch.standing path).Leaves (base.get? path) (merged.get? path) := by
  have plain := everywhere_plainData distinct unreserved silent
  obtain ⟨p, reads, -, laid⟩ := overlays_of_merge plain done
  exact Patch.Overlays.leaves (some base) laid reads plain undisguised path

section Network

def networkBase : Tree :=
  .mapping [("name", .str "small"),
    ("layers", .list [.mapping [("width", .int 4)], .mapping [("width", .int 8)]]),
    ("seeds", .int 1)]

/-- One layer is patched by its position, and a scalar gives way to a list. -/
def networkPatch : Tree :=
  .mapping [("layers", .mapping [(Position.token 1, .mapping [("depth", .int 2)])]),
    ("seeds", .list [.int 3, .mapping []])]

def networkMerged : Tree :=
  .mapping [("name", .str "small"),
    ("layers", .list [.mapping [("width", .int 4)], .mapping [("width", .int 8), ("depth", .int 2)]]),
    ("seeds", .list [.int 3, .mapping []])]

theorem merge_leaves_network :
    merge .refusing networkBase networkPatch = .ok networkMerged ∧
    networkMerged.get? [.key "layers", .index 1, .key "depth"] = some (.int 2) ∧
    networkMerged.get? [.key "seeds", .index 0, .key "low"] = none ∧
    (∃ t, networkMerged.get? [.key "seeds", .index 1] = some t ∧ t.isLeaf = false) ∧
    networkMerged.get? [.key "layers", .index 1, .key "width"]
      = networkBase.get? [.key "layers", .index 1, .key "width"] := by
  have merges : merge .refusing networkBase networkPatch = .ok networkMerged := by
    with_unfolding_all rfl
  have unreserved : networkPatch.Everywhere Unreserved :=
    (checkPlainAt_eq_ok networkPatch .root).mp rfl
  have leaves := merge_leaves .refusing networkBase networkPatch networkMerged (by decide)
    (by decide) unreserved (by decide) merges
  exact ⟨merges, leaves [.key "layers", .index 1, .key "depth"],
    leaves [.key "seeds", .index 0, .key "low"], leaves [.key "seeds", .index 1],
    leaves [.key "layers", .index 1, .key "width"]⟩

end Network

end Tree

end ConfigSweep
