import ConfigSweep.Proofs.PatchForm
import ConfigSweep.Proofs.PlainMerge

/-!
# Directives are used up

A patch that was read writes no directive into the tree: reserved keys get there only by plain keys
under which no directive is read, or by literals of edit scripts. Without these, every root that a
merge passes through is free of reserved keys if the base is, and the merged tree is never refused.
-/

namespace ConfigSweep

namespace Keyword

/-- The keys under which no directive is read where a patch expects values. -/
def stray : List String :=
  [identifier, valueAliases, insert, remove, overwrite]

/-- A key that is reserved is a directive, or it is a stray one. -/
theorem isReserved_eq_false {key : String} (single : isGroup key = false)
    (plain : key ∉ [eval, sweep, operations, upsert]) (spare : key ∉ stray) :
    isReserved key = false := by
  simp only [stray, List.mem_cons, List.not_mem_nil, or_false, not_or] at plain spare
  simp [isReserved, single, all, plain, spare]

end Keyword

namespace Patch

/-- No plain key of the patch itself is a stray one, and the literals of its script hold no reserved
keys. -/
def NoStray : Patch → Prop
  | .edits script payload =>
    script.LiteralsPlain ∧ ∀ key ∈ Mapping.keys payload.entries, key ∉ Keyword.stray
  | .keyed patch => ∀ key ∈ Mapping.keys patch.entries, key ∉ Keyword.stray
  | _ => True

/-- A literal that is read of itself is a leaf. -/
theorem isLeaf_of_ofTree {value : Tree} (reads : ofTree value = .ok (.scalar value)) :
    value.isLeaf = true := by
  cases ofTreeAt_iff.mp reads with
  | scalar leaf => exact leaf

theorem keysPlain_of_wellKeyed {patch : KeyedPatch Patch} (wellKeyed : patch.WellKeyed)
    (spare : ∀ key ∈ Mapping.keys patch.entries, key ∉ Keyword.stray) : patch.KeysPlain := by
  intro e member
  have key : e.1 ∈ Mapping.keys patch.entries := List.mem_map_of_mem member
  obtain ⟨single, plain⟩ := wellKeyed.plain e.1 key
  exact Keyword.isReserved_eq_false single plain (spare e.1 key)

/-- What a patch that was read writes holds no reserved keys, stray ones apart. -/
theorem AsRead.writesPlain {p : Patch} (read : p.AsRead) (spare : p.NoStray) : p.WritesPlain := by
  cases p with
  | scalar value =>
    have leaf := isLeaf_of_ofTree read
    cases value with
    | list items => cases leaf
    | mapping m => cases leaf
    | _ => exact Tree.unreserved_of_entries? rfl
  | edits script payload => exact ⟨spare.1, keysPlain_of_wellKeyed read.2 spare.2⟩
  | keyed patch => exact keysPlain_of_wellKeyed read spare
  | _ => trivial

/-- If neither the base nor what calls make of plain trees holds a reserved key, and no plain key of
the patch is a stray one and no literal of a script holds a reserved key, then every visit of the
merge starts from a root without reserved keys and leaves one. So the check of the merged tree finds
nothing. -/
theorem directives_consumed {evaluator : Evaluator} {base t : Tree} {p : Patch}
    (keeps : evaluator.KeepsPlain) (plain : base.Plain) (distinct : t.Distinct)
    (reads : ofTree t = .ok p) (spare : p.Everywhere NoStray) :
    (∀ visit, Relation.ReflTransGen (Merge.Enters evaluator) ⟨p, .root, base⟩ visit →
      visit.root.Plain ∧
        ∀ r, Merge.node evaluator visit.patch visit.focus visit.root = .ok r → r.Plain) ∧
    (∀ merged, Merge.node evaluator p .root base = .ok merged → merged.checkPlain = .ok ()) ∧
    p.mergeInto evaluator base = Merge.node evaluator p .root base := by
  have writes : p.Everywhere WritesPlain :=
    ((everywhere_asRead distinct reads).and spare).imp fun _ both => both.1.writesPlain both.2
  have checked : ∀ merged, Merge.node evaluator p .root base = .ok merged →
      merged.checkPlain = .ok () := by
    intro merged done
    have free : merged.Plain := Merge.plain_node keeps writes .root base merged plain done
    exact (Tree.checkPlainAt_eq_ok merged .root).mpr free
  refine ⟨fun visit active => ?_, checked, ?_⟩
  · obtain ⟨here, writes⟩ := Merge.plain_of_active keeps plain writes active
    exact ⟨here, fun r done => Merge.plain_node keeps writes _ _ r here done⟩
  · unfold mergeInto
    cases merges : Merge.node evaluator p .root base with
    | error f => rfl
    | ok merged =>
      have accepted := checked merged merges
      dsimp only [bind, Except.bind]
      rw [accepted]
      rfl

section Echo

/-- Every call yields its argument. -/
def echo : Evaluator :=
  fun _ argument => .ok argument

/-- A script that puts in the whole root, an item made from its payload, and a literal. -/
def echoScript : Script :=
  [.insert 0 (some (.computed (.named "root"))), .insert (-1) none,
    .overwrite 1 (some (.literal .null))]

def echoLayers : Patch :=
  .edits echoScript { entries := [("width", .scalar (.int 3))] }

def echoName : Patch :=
  .keyed { entries := [("name", .fromPrevious (.named "same"))] }

/-- Edits of a list, and behind them an upsert in a group. -/
def echoPatch : Patch :=
  .keyed {
    entries := [("layers", echoLayers)]
    groups := [("sweep_group_a", .keyed { upserts := [(some "late", echoName)] })] }

def echoBase : Tree :=
  .mapping [("layers", .list [.int 8])]

def echoMerged : Tree :=
  .mapping [("layers", .list [echoBase, .null, .mapping [("width", .int 3)]]), ("name", .null)]

theorem directives_consumed_echo :
    echo.KeepsPlain ∧ echoBase.Plain ∧ echoPatch.toTree.Distinct ∧
    ofTree echoPatch.toTree = .ok echoPatch ∧ echoPatch.Everywhere NoStray ∧
    echoPatch.mergeInto echo echoBase = .ok echoMerged ∧ echoMerged.checkPlain = .ok () := by
  have keeps : echo.KeepsPlain := by
    intro call argument value plain yields
    exact Except.ok.inj yields ▸ plain
  have plain : echoBase.Plain :=
    (Tree.checkPlainAt_eq_ok echoBase .root).mp (by with_unfolding_all rfl)
  have distinct : echoPatch.toTree.Distinct := by decide
  have reads : ofTree echoPatch.toTree = .ok echoPatch := by with_unfolding_all rfl
  have spare : echoPatch.Everywhere NoStray := by
    have literals : echoScript.LiteralsPlain := by
      simp [echoScript, Script.LiteralsPlain, Edit.value?, Tree.plain_null]
    have layers : echoLayers.Everywhere NoStray := by
      refine .intro ⟨literals, by decide⟩ fun c member => ?_
      obtain rfl := List.mem_singleton.mp member
      exact .intro trivial nofun
    have name : echoName.Everywhere NoStray := by
      refine .intro (show ∀ key ∈ ["name"], key ∉ Keyword.stray by decide) fun c member => ?_
      obtain rfl := List.mem_singleton.mp member
      exact .intro trivial nofun
    refine .intro (show ∀ key ∈ ["layers"], key ∉ Keyword.stray by decide) fun c member => ?_
    rcases List.mem_pair.mp member with rfl | rfl
    · exact layers
    · refine .intro (show ∀ key ∈ [], key ∉ Keyword.stray by decide) fun c member => ?_
      obtain rfl := List.mem_singleton.mp member
      exact name
  have merges : Merge.node echo echoPatch .root echoBase = .ok echoMerged := by
    with_unfolding_all rfl
  obtain ⟨-, checked, whole⟩ := directives_consumed keeps plain distinct reads spare
  exact ⟨keeps, plain, distinct, reads, spare, whole.trans merges, checked _ merges⟩

end Echo

end Patch

end ConfigSweep
