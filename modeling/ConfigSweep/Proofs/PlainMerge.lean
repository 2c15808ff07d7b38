import ConfigSweep.Proofs.AssignmentOrder
import ConfigSweep.Proofs.Keeping
import ConfigSweep.Proofs.MergeWalk

/-!
# Merges that write no reserved key

A merge of a patch whose keys and literals are plain puts no reserved key into a tree that holds
none, neither in the end nor in between: every visit starts from such a root and leaves one.
-/

namespace ConfigSweep

namespace Tree

/-- The tree holds no reserved key. -/
abbrev Plain (t : Tree) : Prop :=
  t.Everywhere Unreserved

section Plain

variable {t u c root r value : Tree} {path : Path}

theorem unreserved_of_entries? (keyless : t.entries? = none) : t.Unreserved := by
  rintro entries rfl
  cases keyless

theorem plain_list {items : List Tree} : (Tree.list items).Plain ↔ ∀ t ∈ items, t.Plain :=
  (and_iff_right (unreserved_of_entries? rfl)).trans everywhereItems_iff

theorem plain_mapping {m : Mapping Tree} :
    (Tree.mapping m).Plain ↔
      (∀ key ∈ Mapping.keys m, Keyword.isReserved key = false) ∧ ∀ e ∈ m, e.2.Plain := by
  refine and_congr ⟨fun free => free m rfl, fun free _ same => ?_⟩ everywhereEntries_iff
  exact Tree.mapping.inj same ▸ free

theorem plain_null : Tree.null.Plain :=
  unreserved_of_entries? rfl

theorem plain_empty : (Tree.mapping []).Plain :=
  plain_mapping.mpr ⟨by simp, by simp⟩

namespace Plain

variable (plain : t.Plain)

include plain

theorem setChild (step : Step) (fresh : c.Plain) : (t.setChild step c).Plain := by
  have below : (t.setChild step c).AllChildren Plain := AllChildren.setChild plain.child step fresh
  refine .of_children ?_ below
  cases t with
  | mapping m =>
    cases step with
    | index position => exact plain.here
    | key name =>
      rw [Tree.setChild]
      split
      · next there =>
        rintro _ same key member
        obtain rfl := Tree.mapping.inj same
        rw [Mapping.keys_insert, if_pos (Mapping.has_iff.mp there)] at member
        exact plain.here m rfl key member
      · exact plain.here
  | list items => cases step <;> exact unreserved_of_entries? rfl
  | _ => cases step <;> exact unreserved_of_entries? rfl

theorem get? (there : t.get? path = some u) : u.Plain := by
  induction path generalizing t with
  | nil => exact Option.some.inj there ▸ plain
  | cons step rest ih =>
    obtain ⟨c, toChild, below⟩ := Option.bind_eq_some_iff.mp there
    exact ih (AllChildren.child? plain.child toChild) below

theorem replace? (fresh : value.Plain) (done : Tree.replace? value path t = some r) : r.Plain := by
  induction path generalizing t r with
  | nil => exact Option.some.inj done ▸ fresh
  | cons step rest ih =>
    obtain ⟨c, toChild, done⟩ := Option.bind_eq_some_iff.mp done
    obtain ⟨u, below, done⟩ := Option.bind_eq_some_iff.mp done
    obtain rfl := Option.some.inj done
    exact plain.setChild step (ih (AllChildren.child? plain.child toChild) below)

/-- A list in disguise loses its keys, any other mapping keeps them. -/
theorem reveal (done : t.reveal = .ok u) : u.Plain := by
  have below : u.AllChildren Plain := AllChildren.reveal plain.child done
  refine .of_children ?_ below
  cases reveal_iff.mp done with
  | itself _ => exact plain.here
  | list positional within lists => exact unreserved_of_entries? rfl

end Plain

end Plain

end Tree

/-- Calls on plain trees yield plain values. -/
def Evaluator.KeepsPlain (evaluator : Evaluator) : Prop :=
  ∀ call argument value, argument.Plain → evaluator call argument = .ok value → value.Plain

namespace Focus

variable {focus : Focus} {root t r : Tree}

theorem plain_read (plain : root.Plain) (done : focus.read root = .ok t) : t.Plain :=
  plain.get? (read_eq_ok.mp done)

theorem plain_write {value : Tree} (plain : root.Plain) (fresh : value.Plain)
    (done : focus.write value root = .ok r) : r.Plain :=
  plain.replace? fresh (write_eq_ok.mp done)

theorem plain_revealed (plain : root.Plain) (done : focus.revealed root = .ok (t, r)) :
    t.Plain ∧ r.Plain := by
  obtain ⟨hidden, reads, done⟩ := bind_eq_ok.mp done
  obtain ⟨shown, reveals, done⟩ := bind_eq_ok.mp done
  obtain ⟨written, writes, done⟩ := bind_eq_ok.mp done
  obtain ⟨rfl, rfl⟩ := Prod.mk.inj (Except.ok.inj done)
  have fresh := (plain_read plain reads).reveal (Stopped.outcome_eq_ok.mp reveals)
  exact ⟨fresh, plain_write plain fresh writes⟩

theorem plain_reveal (plain : root.Plain) (done : focus.reveal root = .ok r) : r.Plain := by
  obtain ⟨shown, reveals, done⟩ := bind_eq_ok.mp done
  obtain rfl := Except.ok.inj done
  exact (plain_revealed plain reveals).2

theorem plain_items {items : List Tree} (plain : root.Plain) (done : focus.items root = .ok items) :
    ∀ t ∈ items, t.Plain := by
  obtain ⟨t, reads, done⟩ := bind_eq_ok.mp done
  split at done
  · obtain rfl := Except.ok.inj done
    exact Tree.plain_list.mp (plain_read plain reads)
  · cases done

end Focus

namespace Merge

/-- The operation puts no reserved key into a tree that holds none. -/
def KeepsPlain (op : Focus → Tree → Outcome Tree) : Prop :=
  ∀ focus root r, root.Plain → op focus root = .ok r → r.Plain

section Opening

variable {focus : Focus} {root r : Tree}

theorem plain_openMapping {noEntries : Bool} (plain : root.Plain)
    (done : openMapping focus noEntries root = .ok r) : r.Plain := by
  obtain ⟨⟨t, shown⟩, reveals, done⟩ := bind_eq_ok.mp done
  have revealed := (Focus.plain_revealed plain reveals).2
  dsimp only at done
  split at done
  · exact Except.ok.inj done ▸ revealed
  · exact Focus.plain_write revealed Tree.plain_empty done
  · split at done
    · exact Except.ok.inj done ▸ revealed
    · cases done

theorem plain_ensureKey {key : String} (single : Keyword.isReserved key = false)
    (plain : root.Plain) (done : ensureKey focus key root = .ok r) : r.Plain := by
  obtain ⟨t, reads, done⟩ := bind_eq_ok.mp done
  split at done
  · next entries =>
    split at done
    · exact Except.ok.inj done ▸ plain
    · obtain ⟨keys, values⟩ := Tree.plain_mapping.mp (Focus.plain_read plain reads)
      refine Focus.plain_write plain (Tree.plain_mapping.mpr ⟨fun probe member => ?_, ?_⟩) done
      · rcases Mapping.mem_keys_insert.mp member with rfl | before
        · exact single
        · exact keys probe before
      · intro e member
        rcases Mapping.mem_of_mem_insert member with rfl | before
        · exact Tree.plain_null
        · exact values e before
  · cases done

theorem plain_nulls (length : Nat) : (Tree.list (List.replicate length .null)).Plain :=
  Tree.plain_list.mpr fun _ member => List.eq_of_mem_replicate member ▸ Tree.plain_null

theorem plain_openList {length : Nat} (plain : root.Plain)
    (done : openList focus length root = .ok r) : r.Plain := by
  obtain ⟨⟨t, shown⟩, reveals, done⟩ := bind_eq_ok.mp done
  have revealed := (Focus.plain_revealed plain reveals).2
  dsimp only at done
  split at done
  · split at done
    · exact Except.ok.inj done ▸ revealed
    · cases done
  · cases done
  · exact Focus.plain_write revealed (plain_nulls length) done

theorem plain_openSlots {slots : SparseList Patch} {length : Nat} (plain : root.Plain)
    (done : openSlots focus slots root = .ok (length, r)) : r.Plain := by
  obtain ⟨⟨t, shown⟩, reveals, done⟩ := bind_eq_ok.mp done
  have revealed := (Focus.plain_revealed plain reveals).2
  dsimp only at done
  split at done
  · obtain ⟨-, rfl⟩ := Prod.mk.inj (Except.ok.inj done)
    exact revealed
  · cases done
  · obtain ⟨⟨⟩, -, done⟩ := bind_eq_ok.mp done
    obtain ⟨written, writes, done⟩ := bind_eq_ok.mp done
    obtain ⟨-, rfl⟩ := Prod.mk.inj (Except.ok.inj done)
    exact Focus.plain_write revealed (plain_nulls slots.size) writes

theorem plain_openScript (plain : root.Plain) (done : openScript focus root = .ok r) :
    r.Plain := by
  obtain ⟨⟨t, shown⟩, reveals, done⟩ := bind_eq_ok.mp done
  have revealed := (Focus.plain_revealed plain reveals).2
  dsimp only at done
  split at done
  · exact Except.ok.inj done ▸ revealed
  · cases done

end Opening

variable {evaluator : Evaluator}

section Runs

variable {focus : Focus} {root r : Tree}

theorem plain_items {ps : List Patch} (each : ∀ p ∈ ps, KeepsPlain (node evaluator p))
    {position : Nat} (plain : root.Plain) (done : items evaluator ps position focus root = .ok r) :
    r.Plain := by
  rw [items_eq_foldlM] at done
  exact foldlM_keeps (fun e member root _ plain done =>
    each e.1 (List.fst_mem_of_mem_zipIdx member) _ root _ plain done) plain done

theorem plain_slots {slots : List (Nat × Patch)}
    (each : ∀ slot ∈ slots, KeepsPlain (node evaluator slot.2)) {length : Nat} (plain : root.Plain)
    (done : Merge.slots evaluator slots length focus root = .ok r) : r.Plain := by
  rw [slots_eq_foldlM] at done
  refine foldlM_keeps (fun slot member root next plain done => ?_) plain done
  split at done
  · cases done
  · exact each slot member _ root next plain done

theorem plain_values {entries : List (String × Patch)}
    (each : ∀ e ∈ entries, KeepsPlain (node evaluator e.2))
    (single : ∀ e ∈ entries, Keyword.isReserved e.1 = false) (plain : root.Plain)
    (done : values evaluator entries focus root = .ok r) : r.Plain := by
  rw [values_eq_foldlM] at done
  refine foldlM_keeps (fun e member root next plain done => ?_) plain done
  obtain ⟨present, ensures, done⟩ := bind_eq_ok.mp done
  exact each e member _ present next (plain_ensureKey (single e member) plain ensures) done

theorem plain_revisits {groups : List (String × Patch)}
    (each : ∀ e ∈ groups, KeepsPlain (node evaluator e.2)) (plain : root.Plain)
    (done : revisits evaluator groups focus root = .ok r) : r.Plain := by
  rw [revisits_eq_foldlM] at done
  exact foldlM_keeps (fun e member root next => each e member _ root next) plain done

theorem plain_ordered {upserts : List (Option String × Patch)}
    (each : ∀ u ∈ upserts, KeepsPlain (node evaluator u.2)) {place : Nat} (plain : root.Plain)
    (done : ordered evaluator upserts place focus root = .ok r) : r.Plain := by
  rw [ordered_eq_foldlM] at done
  exact foldlM_keeps (fun e member root next plain done =>
    each e.1 (List.fst_mem_of_mem_zipIdx member) _ root next plain done) plain done

theorem plain_keyed {patch : KeyedPatch Patch}
    (each : ∀ p ∈ patch.patches, KeepsPlain (node evaluator p))
    (single : ∀ e ∈ patch.entries, Keyword.isReserved e.1 = false) :
    KeepsPlain fun focus root => keyed evaluator patch focus root := by
  obtain ⟨entries, groups, upserts⟩ := patch
  intro focus root r plain done
  obtain ⟨opened, opens, done⟩ := bind_eq_ok.mp done
  obtain ⟨filled, fills, done⟩ := bind_eq_ok.mp done
  obtain ⟨revisited, revisit, done⟩ := bind_eq_ok.mp done
  have afterEntries := plain_values
    (fun e member => each e.2 (KeyedPatch.mem_patches_of_entry member)) single
    (plain_openMapping plain opens) fills
  have afterGroups := plain_revisits
    (fun e member => each e.2 (KeyedPatch.mem_patches_of_group member)) afterEntries revisit
  exact plain_ordered (fun u member => each u.2 (KeyedPatch.mem_patches_of_upsert member))
    afterGroups done

end Runs

section Scripts

variable {payload : PayloadMerge} {focus : Focus} {root r : Tree}

theorem plain_insertIdx {items : List Tree} (plain : ∀ t ∈ items, t.Plain) {value : Tree}
    (fresh : value.Plain) (position : Nat) : (Tree.list (items.insertIdx position value)).Plain :=
  Tree.plain_list.mpr fun t member => by
    rcases List.eq_or_mem_of_mem_insertIdx member with rfl | before
    · exact fresh
    · exact plain t before

theorem plain_compute (keeps : evaluator.KeepsPlain) {value : EditValue}
    (literal : ∀ v, value = .literal v → v.Plain) (plain : root.Plain) {result : Tree}
    (done : value.compute evaluator root = .ok result) : result.Plain := by
  cases value with
  | literal v => exact Except.ok.inj done ▸ literal v rfl
  | computed call => exact keeps call root result plain done

theorem plain_apply (keeps : evaluator.KeepsPlain) {edit : Edit}
    (literals : ∀ v, edit.value? = some (.literal v) → v.Plain) (filled : KeepsPlain payload)
    (plain : root.Plain) {items : List Tree} (reads : focus.items root = .ok items)
    (done : edit.apply evaluator payload focus items root = .ok r) : r.Plain := by
  have each := Focus.plain_items plain reads
  cases edit with
  | insert requested value =>
    obtain ⟨position, -, done⟩ := bind_eq_ok.mp done
    cases value with
    | some value =>
      obtain ⟨result, computes, done⟩ := bind_eq_ok.mp done
      have fresh :=
        plain_compute keeps (fun v same => literals v (congrArg some same)) plain computes
      exact Focus.plain_write plain (plain_insertIdx each fresh position) done
    | none =>
      obtain ⟨changed, writes, done⟩ := bind_eq_ok.mp done
      have opened := Focus.plain_write plain (plain_insertIdx each Tree.plain_null position) writes
      exact filled _ changed r opened done
  | overwrite requested value =>
    obtain ⟨position, -, done⟩ := bind_eq_ok.mp done
    cases value with
    | some value =>
      obtain ⟨result, computes, done⟩ := bind_eq_ok.mp done
      have fresh :=
        plain_compute keeps (fun v same => literals v (congrArg some same)) plain computes
      refine Focus.plain_write plain (Tree.plain_list.mpr fun t member => ?_) done
      rcases List.mem_or_eq_of_mem_set member with before | rfl
      · exact each t before
      · exact fresh
    | none => exact filled _ root r plain done
  | remove requested =>
    obtain ⟨position, -, done⟩ := bind_eq_ok.mp done
    refine Focus.plain_write plain (Tree.plain_list.mpr fun t member => ?_) done
    exact each t (List.mem_of_mem_eraseIdx member)

theorem plain_run (keeps : evaluator.KeepsPlain) {script : Script}
    (literals : ∀ edit ∈ script, ∀ v, edit.value? = some (.literal v) → v.Plain)
    (filled : KeepsPlain payload) (plain : root.Plain)
    (done : script.run evaluator payload focus root = .ok r) : r.Plain := by
  rw [run_eq_foldlM] at done
  refine foldlM_keeps (fun edit member root next plain done => ?_) plain done
  obtain ⟨items, reads, done⟩ := bind_eq_ok.mp done
  exact plain_apply keeps (literals edit member) filled plain reads done

end Scripts

end Merge

namespace KeyedPatch

/-- Entries patch the values under keys that are not reserved. -/
def KeysPlain (patch : KeyedPatch Patch) : Prop :=
  ∀ e ∈ patch.entries, Keyword.isReserved e.1 = false

end KeyedPatch

/-- The literals of the script hold no reserved keys. -/
def Script.LiteralsPlain (script : Script) : Prop :=
  ∀ edit ∈ script, ∀ v, edit.value? = some (.literal v) → v.Plain

/-- What the patch itself writes holds no reserved keys. -/
def Patch.WritesPlain : Patch → Prop
  | .scalar value => value.Plain
  | .edits script payload => script.LiteralsPlain ∧ payload.KeysPlain
  | .keyed patch => patch.KeysPlain
  | _ => True

namespace Merge

variable {evaluator : Evaluator}

theorem plain_node (keeps : evaluator.KeepsPlain) {p : Patch}
    (writes : p.Everywhere Patch.WritesPlain) : KeepsPlain (node evaluator p) := by
  induction writes with
  | @intro p here within each =>
    intro focus root r plain done
    rw [node_eq_settle] at done
    obtain ⟨changed, done, settles⟩ := settle_eq_ok.mp done
    refine Focus.plain_reveal ?_ settles
    cases p with
    | scalar value => exact Focus.plain_write plain here done
    | fromRoot call =>
      obtain ⟨value, yields, done⟩ := bind_eq_ok.mp done
      exact Focus.plain_write plain (keeps call root value plain yields) done
    | fromPrevious call =>
      obtain ⟨previous, reads, done⟩ := bind_eq_ok.mp done
      obtain ⟨value, yields, done⟩ := bind_eq_ok.mp done
      have fresh := keeps call previous value (Focus.plain_read plain reads) yields
      exact Focus.plain_write plain fresh done
    | list patches =>
      obtain ⟨opened, opens, done⟩ := bind_eq_ok.mp done
      exact plain_items each (plain_openList plain opens) done
    | sparse slots =>
      obtain ⟨slots⟩ := slots
      obtain ⟨⟨length, opened⟩, opens, done⟩ := bind_eq_ok.mp done
      exact plain_slots (fun slot member => each slot.2 (List.mem_map_of_mem member))
        (plain_openSlots plain opens) done
    | edits script payload =>
      obtain ⟨opened, opens, done⟩ := bind_eq_ok.mp done
      exact plain_run keeps here.1 (plain_keyed each here.2) (plain_openScript plain opens) done
    | keyed patch => exact plain_keyed each here focus root changed plain done

/-- A visit enters others only with roots that hold no reserved key. -/
theorem plain_of_keyedEnters (keeps : evaluator.KeepsPlain) {patch : KeyedPatch Patch}
    {focus : Focus} {root : Tree} {inner : Visit} (plain : root.Plain)
    (each : ∀ p ∈ patch.patches, p.Everywhere Patch.WritesPlain) (single : patch.KeysPlain)
    (enters : KeyedEnters evaluator patch focus root inner) : inner.root.Plain := by
  have entries : ∀ e ∈ patch.entries, KeepsPlain (node evaluator e.2) := fun e member =>
    plain_node keeps (each e.2 (KeyedPatch.mem_patches_of_entry member))
  have groups : ∀ e ∈ patch.groups, KeepsPlain (node evaluator e.2) := fun e member =>
    plain_node keeps (each e.2 (KeyedPatch.mem_patches_of_group member))
  have upserts : ∀ u ∈ patch.upserts, KeepsPlain (node evaluator u.2) := fun u member =>
    plain_node keeps (each u.2 (KeyedPatch.mem_patches_of_upsert member))
  cases enters with
  | entry opens done ensures =>
    have reached := plain_values (fun e member => entries e (List.mem_append_left _ member))
      (fun e member => single e (List.mem_append_left _ member)) (plain_openMapping plain opens)
      done
    exact plain_ensureKey (single _ List.mem_append_cons_self) reached ensures
  | group opens fills done =>
    have filled := plain_values entries single (plain_openMapping plain opens) fills
    exact plain_revisits (fun e member => groups e (List.mem_append_left _ member)) filled done
  | upsert opens fills revisit done =>
    have filled := plain_values entries single (plain_openMapping plain opens) fills
    have revisited := plain_revisits groups filled revisit
    exact plain_ordered (fun u member => upserts u (List.mem_append_left _ member)) revisited done

theorem plain_of_enters (keeps : evaluator.KeepsPlain) {outer inner : Visit}
    (plain : outer.root.Plain) (writes : outer.patch.Everywhere Patch.WritesPlain)
    (enters : Enters evaluator outer inner) : inner.root.Plain := by
  obtain ⟨here, within⟩ := writes
  have nodes : ∀ p ∈ outer.patch.children, KeepsPlain (node evaluator p) :=
    fun p member => plain_node keeps (within p member)
  cases enters with
  | item opens done =>
    exact plain_items (fun p member => nodes p (List.mem_append_left _ member))
      (plain_openList plain opens) done
  | slot opens done =>
    exact plain_slots (fun slot member => nodes slot.2
      (List.mem_map_of_mem (List.mem_append_left _ member))) (plain_openSlots plain opens) done
  | payload opens done reads leaves enters =>
    have reached := plain_run keeps (fun edit member => here.1 edit (List.mem_append_left _ member))
      (plain_keyed nodes here.2) (plain_openScript plain opens) done
    refine plain_of_keyedEnters keeps ?_ within here.2 enters
    cases leaves with
    | insert finds writes =>
      exact Focus.plain_write reached
        (plain_insertIdx (Focus.plain_items reached reads) Tree.plain_null _) writes
    | overwrite finds => exact reached
  | keyed enters => exact plain_of_keyedEnters keeps plain within here enters

/-- Every visit of a merge starts from a root without reserved keys. -/
theorem plain_of_active (keeps : evaluator.KeepsPlain) {start visit : Visit}
    (plain : start.root.Plain) (writes : start.patch.Everywhere Patch.WritesPlain)
    (active : Relation.ReflTransGen (Enters evaluator) start visit) :
    visit.root.Plain ∧ visit.patch.Everywhere Patch.WritesPlain := by
  induction active with
  | refl => exact ⟨plain, writes⟩
  | tail _ enters ih =>
    refine ⟨plain_of_enters keeps ih.1 ih.2 enters, ?_⟩
    obtain ⟨_, within⟩ := ih.2
    exact within _ (patch_of_enters enters)

end Merge

end ConfigSweep
