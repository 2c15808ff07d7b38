import ConfigSweep.Proofs.Operations
import ConfigSweep.Proofs.ViewReading

/-!
# Merging without calls on the root

A patch that asks for no call on the root reads and changes nothing but the node in focus. So two
such patches below different keys of a mapping can be merged in either order.
-/

namespace ConfigSweep

namespace Merge

/-- At a node that is there, the operation reads and changes that node only. -/
def Local (op : Focus → Tree → Outcome Tree) : Prop :=
  ∃ inner : Tree → Option Tree, ∀ focus root t, root.get? focus.path = some t → ∀ r,
    op focus root = .ok r ↔ ∃ u, inner t = some u ∧ Tree.replace? u focus.path root = some r

section Operations

variable {α : Type} {op next : Focus → Tree → Outcome Tree}

theorem Local.congr (isLocal : Local op) (same : ∀ focus root r, next focus root = .ok r ↔
    op focus root = .ok r) : Local next := by
  obtain ⟨inner, spec⟩ := isLocal
  exact ⟨inner, fun focus root t there r => (same focus root r).trans (spec focus root t there r)⟩

theorem Local.ok : Local fun _ root => .ok root := by
  refine ⟨some, fun focus root t there r => ?_⟩
  constructor
  · intro done
    obtain rfl := Except.ok.inj done
    exact ⟨t, rfl, Tree.replace?_self there⟩
  · rintro ⟨_, ⟨⟩, done⟩
    rw [Tree.replace?_self there] at done
    exact congrArg Except.ok (Option.some.inj done)

theorem Local.fail (cause : Focus → Tree → Cause) :
    Local fun focus root => ConfigSweep.fail (cause focus root) := by
  refine ⟨fun _ => none, fun focus root t there r => ?_⟩
  simp [ConfigSweep.fail]

theorem Local.write (value : Tree) : Local fun focus root => focus.write value root := by
  refine ⟨fun _ => some value, fun focus root t there r => ?_⟩
  rw [Focus.write_eq_ok]
  simp

theorem Local.bind (first : Local op) (second : Local next) :
    Local fun focus root => op focus root >>= next focus := by
  obtain ⟨inner, spec⟩ := first
  obtain ⟨inner', spec'⟩ := second
  refine ⟨fun t => (inner t).bind inner', fun focus root t there r => ?_⟩
  rw [bind_eq_ok]
  constructor
  · rintro ⟨changed, done, done'⟩
    obtain ⟨u, makes, replaced⟩ := (spec focus root t there changed).mp done
    obtain ⟨v, makes', replaced'⟩ :=
      (spec' focus changed u (Tree.get?_replace? replaced) r).mp done'
    rw [Tree.replace?_replace? replaced] at replaced'
    exact ⟨v, Option.bind_eq_some_iff.mpr ⟨u, makes, makes'⟩, replaced'⟩
  · rintro ⟨v, whole, replaced'⟩
    obtain ⟨u, makes, makes'⟩ := Option.bind_eq_some_iff.mp whole
    obtain ⟨changed, replaced⟩ := Tree.exists_replace? there u
    refine ⟨changed, (spec focus root t there changed).mpr ⟨u, makes, replaced⟩, ?_⟩
    refine (spec' focus changed u (Tree.get?_replace? replaced) r).mpr ⟨v, makes', ?_⟩
    rw [Tree.replace?_replace? replaced]
    exact replaced'

/-- What does not look at the tree is done before. -/
theorem Local.given {next : α → Focus → Tree → Outcome Tree} (outcome : Outcome α)
    (each : ∀ a, Local (next a)) : Local fun focus root => outcome >>= fun a => next a focus root := by
  cases outcome with
  | error failure =>
    refine ⟨fun _ => none, fun focus root t there r => ?_⟩
    simp [Bind.bind, Except.bind]
  | ok a => exact each a

theorem Local.read {next : Tree → Focus → Tree → Outcome Tree} (each : ∀ t, Local (next t)) :
    Local fun focus root => focus.read root >>= fun t => next t focus root := by
  choose inner spec using each
  refine ⟨fun t => inner t t, fun focus root t there r => ?_⟩
  dsimp only
  rw [Focus.read_eq_ok.mpr there]
  exact spec t focus root t there r

theorem Local.under (isLocal : Local op) (label : String) :
    Local fun focus root => op (focus.under label) root := by
  obtain ⟨inner, spec⟩ := isLocal
  exact ⟨inner, fun focus root t there r => spec (focus.under label) root t there r⟩

/-- What is done at a child is done at the node, if it fails where there is no child. -/
theorem Local.child (isLocal : Local op) (attached : Attached op) (step : Step)
    {down : Focus → Focus} (below : ∀ focus, (down focus).path = focus.path ++ [step]) :
    Local fun focus root => op (down focus) root := by
  obtain ⟨inner, spec⟩ := isLocal
  refine ⟨fun t => (t.child? step).bind fun c => (inner c).map fun u => t.setChild step u,
    fun focus root t there r => ?_⟩
  have onward := Tree.get?_concat focus.path step root
  rw [there, Option.bind_some, ← below] at onward
  dsimp only
  cases toChild : t.child? step with
  | none =>
    rw [toChild] at onward
    constructor
    · intro done
      obtain ⟨c, found⟩ := attached _ _ _ done
      rw [onward] at found
      cases found
    · rintro ⟨u, makes, -⟩
      cases makes
  | some c =>
    rw [toChild] at onward
    rw [spec _ root c onward r, Option.bind_some, below]
    simp only [Option.map_eq_some_iff, Tree.replace?_concat there toChild]
    constructor
    · rintro ⟨u, makes, done⟩
      exact ⟨_, ⟨u, makes, rfl⟩, done⟩
    · rintro ⟨_, ⟨u, makes, rfl⟩, done⟩
      exact ⟨u, makes, done⟩

/-- Reading or changing only the node in focus is kept by all that merges are composed of. -/
theorem Local.compositional : Compositional Local where
  congr := .congr
  ok := .ok
  fail := .fail
  write := .write
  bind := .bind
  given := .given
  read := .read
  under := .under
  child := .child

end Operations

end Merge

/-- The patch is merged without a look beyond the node. -/
abbrev Patch.Local (evaluator : Evaluator) (p : Patch) : Prop :=
  Merge.Local (Merge.node evaluator p)

namespace Patch

/-- What the patch itself asks for is told from the node alone: it makes no call on the root. -/
def KeepsToNode : Patch → Prop
  | .fromRoot _ => False
  | .edits script _ => ∀ edit ∈ script, edit.CallFree
  | _ => True

/-- The patch and those within it make no call on the root. -/
abbrev CallFree (p : Patch) : Prop :=
  p.Everywhere KeepsToNode

theorem keyed_local {evaluator : Evaluator} {patch : KeyedPatch Patch}
    (each : ∀ p ∈ patch.patches, p.Local evaluator) :
    Merge.Local fun focus root => Merge.keyed evaluator patch focus root :=
  Merge.Local.compositional.keyed
    (fun e member => each e.2 (KeyedPatch.mem_patches_of_entry member))
    (fun e member => each e.2 (KeyedPatch.mem_patches_of_group member))
    (fun u member => each u.2 (KeyedPatch.mem_patches_of_upsert member))

theorem CallFree.isLocal {p : Patch} (callFree : p.CallFree) (evaluator : Evaluator) :
    p.Local evaluator := by
  induction callFree with
  | @intro p here within ih =>
    have steps := Merge.Local.compositional
    cases p with
    | scalar value => exact steps.scalar value
    | fromPrevious call => exact steps.fromPrevious call
    | fromRoot call => exact here.elim
    | list items => exact steps.list ih
    | sparse slots =>
      exact steps.sparse fun slot member => ih slot.2 (List.mem_map.mpr ⟨slot, member, rfl⟩)
    | edits script payload =>
      exact steps.edits (fun edit member => .inl (here edit member)) (keyed_local ih)
    | keyed patch => exact steps.settle (keyed_local ih) _

end Patch

namespace Merge

variable {evaluator : Evaluator}

section Commuting

/-- The mapping with a value under the key, null if it had none. -/
def opened (key : String) (m : Mapping Tree) : Mapping Tree :=
  if Mapping.has key m then m else Mapping.insert key .null m

theorem get?_opened (key : String) (m : Mapping Tree) :
    Mapping.get? key (opened key m) = some ((Mapping.get? key m).getD .null) := by
  unfold opened Mapping.has
  cases found : Mapping.get? key m with
  | none => simp [Mapping.get?_insert]
  | some v => simp [found]

theorem insert_opened (key : String) (value : Tree) (m : Mapping Tree) :
    Mapping.insert key value (opened key m) = Mapping.insert key value m := by
  unfold opened
  split
  · rfl
  · exact Mapping.insert_insert key .null value m

theorem ensureKey_eq_ok {key : String} {focus : Focus} {root r : Tree} :
    ensureKey focus key root = .ok r ↔ ∃ m, root.get? focus.path = some (.mapping m) ∧
      Tree.replace? (.mapping (opened key m)) focus.path root = some r := by
  unfold ensureKey
  rw [bind_eq_ok]
  constructor
  · rintro ⟨t, reads, done⟩
    have there := Focus.read_eq_ok.mp reads
    cases t with
    | mapping m =>
      refine ⟨m, there, ?_⟩
      dsimp only at done
      unfold opened
      split at done
      · next has =>
        obtain rfl := Except.ok.inj done
        rw [if_pos has]
        exact Tree.replace?_self there
      · next absent =>
        rw [if_neg absent]
        exact Focus.write_eq_ok.mp done
    | _ => cases done
  · rintro ⟨m, there, done⟩
    refine ⟨.mapping m, Focus.read_eq_ok.mpr there, ?_⟩
    dsimp only
    unfold opened at done
    split
    · next has =>
      rw [if_pos has, Tree.replace?_self there] at done
      exact congrArg Except.ok (Option.some.inj done)
    · next absent =>
      rw [if_neg absent] at done
      exact Focus.write_eq_ok.mpr done

/-- What a local patch makes of the value under a key is written under that key. -/
theorem values_singleton_eq_ok {p : Patch} {inner : Tree → Option Tree}
    (spec : ∀ focus root t, root.get? focus.path = some t → ∀ r, node evaluator p focus root = .ok r ↔
      ∃ u, inner t = some u ∧ Tree.replace? u focus.path root = some r) {key : String}
    {focus : Focus} {root r : Tree} : values evaluator [(key, p)] focus root = .ok r ↔
      ∃ m u, root.get? focus.path = some (.mapping m) ∧
        inner ((Mapping.get? key m).getD .null) = some u ∧
          Tree.replace? (.mapping (Mapping.insert key u m)) focus.path root = some r := by
  have merges : ∀ m changed, Tree.replace? (.mapping (opened key m)) focus.path root = some changed →
      (node evaluator p (focus.atKey key) changed = .ok r ↔
        ∃ u, inner ((Mapping.get? key m).getD .null) = some u ∧
          Tree.replace? (.mapping (Mapping.insert key u m)) focus.path root = some r) := by
    intro m changed replaced
    have there := Tree.get?_replace? replaced
    have toChild : (Tree.mapping (opened key m)).child? (.key key)
        = some ((Mapping.get? key m).getD .null) := get?_opened key m
    have below : changed.get? (focus.atKey key).path = some ((Mapping.get? key m).getD .null) := by
      rw [Focus.atKey, Tree.get?_concat, there]
      exact toChild
    rw [spec _ _ _ below]
    refine exists_congr fun u => and_congr_right fun _ => ?_
    have has : Mapping.has key (opened key m) = true :=
      Option.isSome_iff_exists.mpr ⟨_, get?_opened key m⟩
    rw [Focus.atKey, Tree.replace?_concat there toChild, Tree.replace?_replace? replaced,
      Tree.setChild, if_pos has, insert_opened]
  unfold values
  constructor
  · intro done
    obtain ⟨changed, opens, done⟩ := bind_eq_ok.mp done
    obtain ⟨merged, merge, done⟩ := bind_eq_ok.mp done
    obtain rfl : merged = r := Except.ok.inj done
    obtain ⟨m, there, replaced⟩ := ensureKey_eq_ok.mp opens
    obtain ⟨u, makes, written⟩ := (merges m changed replaced).mp merge
    exact ⟨m, u, there, makes, written⟩
  · rintro ⟨m, u, there, makes, written⟩
    obtain ⟨changed, replaced⟩ := Tree.exists_replace? there (.mapping (opened key m))
    refine bind_eq_ok.mpr ⟨changed, ensureKey_eq_ok.mpr ⟨m, there, replaced⟩, ?_⟩
    exact bind_eq_ok.mpr ⟨r, (merges m changed replaced).mpr ⟨u, makes, written⟩, rfl⟩

theorem values_append (first second : List (String × Patch)) (focus : Focus) (root : Tree) :
    values evaluator (first ++ second) focus root
      = values evaluator first focus root >>= values evaluator second focus := by
  induction first generalizing root with
  | nil => rfl
  | cons e rest ih =>
    rw [List.cons_append, values, values]
    simp only [bind_assoc, ih]

/-- Local patches below keys for different places can trade places. -/
theorem values_swap {first second : String × Patch}
    (apart : Step.ofToken first.1 ≠ Step.ofToken second.1) (local₁ : first.2.Local evaluator)
    (local₂ : second.2.Local evaluator) {focus : Focus} {root r : Tree}
    (done : values evaluator [first, second] focus root = .ok r) :
    ∃ s, values evaluator [second, first] focus root = .ok s ∧ r.SameView s := by
  obtain ⟨k, p⟩ := first
  obtain ⟨l, q⟩ := second
  obtain ⟨inner, spec⟩ := local₁
  obtain ⟨inner', spec'⟩ := local₂
  have names : k ≠ l := fun same => apart (congrArg Step.ofToken same)
  rw [show [(k, p), (l, q)] = [(k, p)] ++ [(l, q)] from rfl, values_append] at done
  obtain ⟨changed, one, two⟩ := bind_eq_ok.mp done
  obtain ⟨m, u, there, makes, replaced⟩ := (values_singleton_eq_ok spec).mp one
  obtain ⟨m', v, there', makes', replaced'⟩ := (values_singleton_eq_ok spec').mp two
  rw [Tree.get?_replace? replaced] at there'
  obtain rfl := Tree.mapping.inj (Option.some.inj there')
  rw [Mapping.get?_insert, if_neg names.symm] at makes'
  rw [Tree.replace?_replace? replaced] at replaced'
  obtain ⟨other, replacedOther⟩ := Tree.exists_replace? there (.mapping (Mapping.insert l v m))
  have traded : (Tree.mapping (Mapping.insert l v (Mapping.insert k u m))).SameView
      (.mapping (Mapping.insert k u (Mapping.insert l v m))) :=
    congrArg View.mapping (Tree.view_insert_comm apart.symm v u m)
  obtain ⟨s, replacedBoth, view⟩ := Tree.replace?_of_view rfl traded replaced'
  refine ⟨s, ?_, view⟩
  rw [show [(l, q), (k, p)] = [(l, q)] ++ [(k, p)] from rfl, values_append]
  refine bind_eq_ok.mpr ⟨other, (values_singleton_eq_ok spec').mpr
    ⟨m, v, there, makes', replacedOther⟩, ?_⟩
  refine (values_singleton_eq_ok spec).mpr ⟨_, u, Tree.get?_replace? replacedOther, ?_, ?_⟩
  · rw [Mapping.get?_insert, if_neg names]
    exact makes
  · rw [Tree.replace?_replace? replacedOther]
    exact replacedBoth

/-- Local patches below keys for different places can come in any order. -/
theorem values_perm (unordered : evaluator.Unordered) {front front' : List (String × Patch)}
    (moved : front.Perm front') (back : List (String × Patch))
    (apart : (front.map fun e => Step.ofToken e.1).Nodup) (locals : ∀ e ∈ front, e.2.Local evaluator)
    (focus : Focus) {root root' : Tree} (same : root.SameView root') :
    (values evaluator (front ++ back) focus root).Follows Tree.SameView
      (values evaluator (front' ++ back) focus root') := by
  have self : ∀ (entries : List (String × Patch)) {root root' : Tree}, root.SameView root' →
      (values evaluator entries focus root).Follows Tree.SameView
        (values evaluator entries focus root') :=
    fun entries _ _ same => values_follows (Patch.follows_named unordered entries) focus same
  induction moved generalizing root root' with
  | nil => exact self back same
  | @cons e front front' moved ih =>
    rw [List.map_cons, List.nodup_cons] at apart
    rw [List.forall_mem_cons] at locals
    rw [List.cons_append, List.cons_append, ← List.singleton_append, values_append,
      ← List.singleton_append (l := front' ++ back), values_append]
    exact (self [e] same).bind fun _ _ merged => ih apart.2 locals.2 merged
  | swap second first rest =>
    rw [List.map_cons, List.map_cons, List.nodup_cons, List.mem_cons, not_or] at apart
    rw [List.forall_mem_cons, List.forall_mem_cons] at locals
    have traded : (values evaluator [first, second] focus root).Follows Tree.SameView
        (values evaluator [second, first] focus root') := by
      intro r done
      obtain ⟨s, other, view⟩ := values_swap apart.1.1 locals.1 locals.2.1 done
      obtain ⟨s', done', view'⟩ := self _ same s other
      exact ⟨s', done', view.trans view'⟩
    have split : ∀ a b : String × Patch, a :: b :: rest ++ back = [a, b] ++ (rest ++ back) :=
      fun _ _ => rfl
    rw [split, split, values_append, values_append]
    exact traded.bind fun _ _ merged => self _ merged
  | @trans front middle front' one two ih ih' =>
    have apart' : (middle.map fun e => Step.ofToken e.1).Nodup :=
      (one.map _).nodup_iff.mp apart
    have locals' : ∀ e ∈ middle, e.2.Local evaluator := fun e member =>
      locals e (one.mem_iff.mpr member)
    exact (ih apart locals same).sameView_trans (ih' apart' locals' rfl)

end Commuting

end Merge

end ConfigSweep
