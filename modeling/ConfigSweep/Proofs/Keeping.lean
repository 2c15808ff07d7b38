import ConfigSweep.Proofs.Contracts

/-!
# Good nodes

A merge makes a good node of every node whose children are good, for every notion of a good node
that a settled node with good children meets. Along the way each node that was opened stays what it
was opened as: a mapping keeps its keys, a list its length unless a script edits it.
-/

namespace ConfigSweep

namespace Position

variable {requested : Int} {length greatest position : Nat} {f : Failure}

theorem counted_le (done : counted requested length greatest = .ok position) :
    position ≤ greatest := by
  unfold counted at done
  dsimp only at done
  split at done
  · next found =>
    obtain rfl := Except.ok.inj done
    exact of_decide_eq_true (Option.filter_eq_some_iff.mp found).2
  · cases done

theorem counted_eq_error (failed : counted requested length greatest = .error f) :
    f.cause = .indexOutOfRange requested length := by
  unfold counted at failed
  dsimp only at failed
  split at failed
  · cases failed
  · obtain rfl := Except.error.inj failed
    rfl

theorem forInsertion_le (done : forInsertion requested length = .ok position) :
    position ≤ length := by
  unfold forInsertion at done
  split at done
  · exact Nat.le_of_eq (Except.ok.inj done).symm
  · exact counted_le done

theorem forInsertion_eq_error (failed : forInsertion requested length = .error f) :
    f.cause = .indexOutOfRange requested length := by
  unfold forInsertion at failed
  split at failed
  · cases failed
  · exact counted_eq_error failed

theorem ofItem_lt (done : ofItem requested length = .ok position) : position < length := by
  cases length with
  | zero => cases done
  | succ last => exact Nat.lt_succ_of_le (counted_le done)

theorem ofItem_eq_error (failed : ofItem requested length = .error f) :
    f.cause = .indexOutOfRange requested length := by
  cases length with
  | zero =>
    obtain rfl := Except.error.inj failed
    rfl
  | succ last => exact counted_eq_error failed

end Position

namespace Edit

/-- The item that the instruction writes is made from the payload. -/
def UsesPayload : Edit → Prop
  | .insert _ none => True
  | .overwrite _ none => True
  | _ => False

/-- The value that the instruction carries. -/
def value? : Edit → Option EditValue
  | .insert _ value => value
  | .overwrite _ value => value
  | .remove _ => none

end Edit

/-- The merge of the payload does not end with a mapping whose keys it made position tokens only. -/
def KeyedPatch.Settles (payload : KeyedPatch Patch) : Prop :=
  payload.entries = [] ∨ (∃ e ∈ payload.entries, Position.isToken e.1 = false) ∨
    payload.groups ≠ [] ∨ payload.upserts ≠ []

/-- The literals of the patch itself are good, and so is what its script makes from the payload. -/
def Patch.Brings (good : Tree → Prop) : Patch → Prop
  | .scalar value => value.AllChildren good
  | .edits script payload =>
    (∀ edit ∈ script, ∀ value, edit.value? = some (.literal value) → good value) ∧
    ∀ edit ∈ script, edit.UsesPayload → payload.Settles ∨ ∀ t : Tree, t.AllChildren good → good t
  | _ => True

namespace Merge

/-- A mapping of good values that has the keys, and others only among those named. -/
def MappingOver (good : Tree → Prop) (among : String → Prop) (keys : List String) (t : Tree) :
    Prop :=
  t.AllChildren good ∧ ∃ m, t = .mapping m ∧ (∀ key ∈ keys, key ∈ Mapping.keys m) ∧
    ∀ key ∈ Mapping.keys m, among key

/-- A node with good children, which is good itself if it is settled. -/
def Loose (good : Tree → Prop) (settled : Prop) (t : Tree) : Prop :=
  t.AllChildren good ∧ (settled → good t)

/-- A list of good items. -/
def ListOver (good : Tree → Prop) (t : Tree) : Prop :=
  t.AllChildren good ∧ ∃ items, t = .list items

/-- A list of so many good items. -/
def ListOfLength (good : Tree → Prop) (length : Nat) (t : Tree) : Prop :=
  t.AllChildren good ∧ ∃ items, t = .list items ∧ items.length = length

section Children

variable {allowed : Cause → Prop} {good : Tree → Prop} {op : Focus → Tree → Outcome Tree}

/-- What is done at a child of a mapping changes none of its keys. -/
theorem Contract.atKey (contract : Contract allowed good op good)
    {among : String → Prop} {key : String} {keys : List String} (inside : key ∈ keys) :
    Contract allowed (MappingOver good among keys) (fun focus root => op (focus.atKey key) root)
      (MappingOver good among keys) := by
  refine contract.child (fun _ => rfl) fun t holds => ?_
  obtain ⟨each, m, rfl, present, known⟩ := holds
  have member := present key inside
  obtain ⟨c, found⟩ := Mapping.exists_get?_of_mem_keys member
  have toChild : (Tree.mapping m).child? (.key key) = some c := found
  refine ⟨c, toChild, each.child? toChild, fun value fresh => ⟨each.setChild (.key key) fresh, ?_⟩⟩
  have unchanged : Mapping.keys (Mapping.insert key value m) = Mapping.keys m := by
    rw [Mapping.keys_insert, if_pos member]
  rw [Tree.setChild, if_pos (Mapping.has_iff.mpr member)]
  exact ⟨_, rfl, unchanged ▸ present, unchanged ▸ known⟩

/-- What is done at an item of a list leaves the list as long as it was. -/
theorem Contract.atIndex (contract : Contract allowed good op good)
    {position length : Nat} (within : position < length) :
    Contract allowed (ListOfLength good length) (fun focus root => op (focus.atIndex position) root)
      (ListOfLength good length) := by
  refine contract.child (fun _ => rfl) fun t holds => ?_
  obtain ⟨each, items, rfl, size⟩ := holds
  obtain ⟨c, found⟩ : ∃ c, (Tree.list items).child? (.index position) = some c :=
    ⟨_, List.getElem?_eq_getElem (size ▸ within)⟩
  exact ⟨c, found, each.child? found, fun value fresh =>
    ⟨each.setChild (.index position) fresh, _, rfl, List.length_set.trans size⟩⟩

theorem Contract.items {evaluator : Evaluator} {ps : List Patch}
    (each : ∀ p ∈ ps, Contract allowed good (node evaluator p) good) {position length : Nat}
    (fits : position + ps.length ≤ length) :
    Contract allowed (ListOfLength good length)
      (fun focus root => items evaluator ps position focus root) (ListOfLength good length) := by
  induction ps generalizing position with
  | nil => exact .ok
  | cons p rest ih =>
    rw [List.forall_mem_cons] at each
    rw [List.length_cons] at fits
    exact (each.1.atIndex (by omega)).bind (ih each.2 (by omega))

end Children

/-- Good nodes can be kept by a merge, whose calls yield good values. Their failures are allowed,
and so is everything but to lose a node. -/
structure Keeping (evaluator : Evaluator) (allowed : Cause → Prop) (good : Tree → Prop) : Prop where
  blank : good .null
  below : ∀ {t : Tree}, good t → t.AllChildren good
  shown : ∀ {t u : Tree}, t.AllChildren good → t.reveal = .ok u → good u
  regular : ∀ {cause}, ¬ cause.TargetLost → allowed cause
  yields : ∀ {call argument value}, evaluator call argument = .ok value → good value
  refuses : ∀ {call argument f}, evaluator call argument = .error f → allowed f.cause

namespace Keeping

variable {evaluator : Evaluator} {allowed : Cause → Prop} {good : Tree → Prop}
  (keeping : Keeping evaluator allowed good)

include keeping

theorem gaps (index : Int) (length : Nat) : allowed (.indexOutOfRange index length) :=
  keeping.regular nofun

/-- Shapes that do not fit are no lost node, unless a leaf should have been a mapping. -/
theorem mismatch {base : Tree.Shape} {patch : PatchKind}
    (other : (base, patch) ≠ (.leaf, .mapping)) : allowed (.shapeMismatch base patch) := by
  apply keeping.regular
  intro lost
  cases lost
  exact other rfl

theorem plain {m : Mapping Tree} (plain : Mapping.isPositional m = false)
    (each : (Tree.mapping m).AllChildren good) : good (.mapping m) :=
  keeping.shown each (Tree.reveal_plain plain)

section Mappings

/-- The node is good as it was opened: it was revealed. -/
theorem openMapping (noEntries : Bool) : Contract allowed (·.AllChildren good)
    (fun focus root => openMapping focus noEntries root)
    fun t => good t ∧ (noEntries = false → MappingOver good (fun _ => True) [] t) := by
  refine .revealed keeping.gaps fun t shown each reveals => ?_
  have children := each.reveal reveals
  have whole := keeping.shown each reveals
  dsimp only
  cases shape : shown.shape with
  | mapping =>
    refine .stay ⟨whole, fun _ => ⟨children, ?_⟩⟩
    cases shown with
    | mapping m => exact ⟨m, rfl, nofun, fun _ _ => trivial⟩
    | _ => cases shape
  | leaf =>
    have empty : (Tree.mapping []).AllChildren good := nofun
    exact .write ⟨keeping.plain rfl empty, fun _ => ⟨empty, [], rfl, nofun, nofun⟩⟩
  | list =>
    cases noEntries with
    | true => exact .stay ⟨whole, nofun⟩
    | false => exact .fail (keeping.mismatch (by simp))

theorem ensureKey {among : String → Prop} {key : String} (known : among key) (keys : List String) :
    Contract allowed (MappingOver good among keys) (fun focus root => ensureKey focus key root)
      (MappingOver good among (keys ++ [key])) := by
  refine .read fun t holds => ?_
  obtain ⟨each, m, rfl, present, within⟩ := holds
  dsimp only
  split
  · next has =>
    refine .stay ⟨each, m, rfl, ?_, within⟩
    rw [List.forall_mem_append, List.forall_mem_singleton]
    exact ⟨present, Mapping.has_iff.mp has⟩
  · refine .write ⟨Tree.allChildren_mapping.mpr fun e member => ?_, _, rfl, ?_, ?_⟩
    · rcases Mapping.mem_of_mem_insert member with rfl | before
      · exact keeping.blank
      · exact Tree.allChildren_mapping.mp each e before
    · rw [List.forall_mem_append, List.forall_mem_singleton]
      exact ⟨fun k member => Mapping.mem_keys_insert.mpr (.inr (present k member)),
        Mapping.mem_keys_insert.mpr (.inl rfl)⟩
    · intro k member
      rcases Mapping.mem_keys_insert.mp member with rfl | before
      · exact known
      · exact within k before

/-- When its values are merged, the mapping has all keys of the patch. -/
theorem values {among : String → Prop} {entries : List (String × Patch)}
    (known : ∀ e ∈ entries, among e.1)
    (each : ∀ e ∈ entries, Contract allowed good (node evaluator e.2) good) (keys : List String) :
    Contract allowed (MappingOver good among keys)
      (fun focus root => values evaluator entries focus root)
      (MappingOver good among (keys ++ entries.map (·.1))) := by
  induction entries generalizing keys with
  | nil =>
    rw [List.map_nil, List.append_nil]
    exact .ok
  | cons e rest ih =>
    rw [List.forall_mem_cons] at known each
    have last : e.1 ∈ keys ++ [e.1] := List.mem_append_right keys List.mem_cons_self
    have later := ih known.2 each.2 (keys ++ [e.1])
    rw [List.append_assoc, List.singleton_append] at later
    exact (keeping.ensureKey known.1 keys).bind ((each.1.atKey last).bind later)

end Mappings

section Lists

theorem openList (length : Nat) : Contract allowed (·.AllChildren good)
    (fun focus root => openList focus length root) (ListOfLength good length) := by
  have blanks : (Tree.list (List.replicate length .null)).AllChildren good :=
    Tree.allChildren_list.mpr fun s member => List.eq_of_mem_replicate member ▸ keeping.blank
  refine .revealed keeping.gaps fun t shown each reveals => ?_
  have children := each.reveal reveals
  cases shown with
  | list items =>
    dsimp only
    split
    · next fits =>
      exact .stay ⟨children, items, rfl, fits⟩
    · exact .fail (keeping.regular nofun)
  | mapping m => exact .fail (keeping.mismatch (by simp))
  | _ => exact .write ⟨blanks, _, rfl, List.length_replicate⟩

theorem openScript : Contract allowed (·.AllChildren good) (fun focus root => openScript focus root)
    (ListOver good) := by
  refine .revealed keeping.gaps fun t shown each reveals => ?_
  have children := each.reveal reveals
  cases shown with
  | list items =>
    exact .stay ⟨children, items, rfl⟩
  | _ => exact .fail (keeping.mismatch (by simp))

theorem slots {slots : List (Nat × Patch)}
    (each : ∀ slot ∈ slots, Contract allowed good (node evaluator slot.2) good) (length : Nat) :
    Contract allowed (ListOfLength good length)
      (fun focus root => Merge.slots evaluator slots length focus root)
      (ListOfLength good length) := by
  induction slots with
  | nil => exact .ok
  | cons slot rest ih =>
    obtain ⟨position, p⟩ := slot
    rw [List.forall_mem_cons] at each
    unfold Merge.slots
    split
    · exact .fail (keeping.gaps _ _)
    · next within => exact (each.1.atIndex (Nat.lt_of_not_le within)).bind (ih each.2)

theorem sparse {slots : List (Nat × Patch)}
    (each : ∀ slot ∈ slots, Contract allowed good (node evaluator slot.2) good) :
    Contract allowed (·.AllChildren good)
      (fun focus root => openSlots focus ⟨slots⟩ root >>= fun opened =>
        Merge.slots evaluator slots opened.1 focus opened.2)
      (ListOver good) := by
  unfold openSlots
  simp only [bind_assoc]
  refine .revealed keeping.gaps fun t shown each' reveals => ?_
  have children := each'.reveal reveals
  have merges : ∀ length, Contract allowed (ListOfLength good length)
      (fun focus root => Merge.slots evaluator slots length focus root) (ListOver good) :=
    fun length => (keeping.slots each length).weaken (fun _ holds => holds) fun _ holds =>
      ⟨holds.1, holds.2.imp fun _ both => both.1⟩
  have fresh : ∀ length, ListOfLength good length (.list (List.replicate length .null)) :=
    fun length => ⟨Tree.allChildren_list.mpr fun s member => List.eq_of_mem_replicate member ▸ keeping.blank,
      _, rfl, List.length_replicate⟩
  dsimp only
  cases shown with
  | list items =>
    have opened : ListOfLength good items.length (.list items) := ⟨children, items, rfl, rfl⟩
    exact (merges items.length).weaken (fun _ same => same ▸ opened) fun _ ok => ok
  | mapping m => exact .fail (keeping.mismatch (by simp))
  | _ =>
    simp only [bind_assoc, pure_bind]
    refine .given (fun _ f failed => ?_) fun _ _ _ => ?_
    · obtain ⟨position, cause⟩ := SparseList.checkGapless_eq_error failed
      exact cause ▸ keeping.gaps _ _
    · exact .bind (.write (fresh _)) (merges _)

end Lists

section Revisits

variable {settled : Prop}

/-- A node that a patch came back to is settled. -/
theorem revisits {groups : List (String × Patch)}
    (each : ∀ e ∈ groups, Contract allowed (·.AllChildren good) (node evaluator e.2) good) :
    Contract allowed (Loose good settled) (fun focus root => revisits evaluator groups focus root)
      (Loose good (settled ∨ groups ≠ [])) := by
  induction groups generalizing settled with
  | nil =>
    exact Contract.ok.weaken (fun _ loose => loose) fun _ loose =>
      ⟨loose.1, by simpa using loose.2⟩
  | cons e rest ih =>
    rw [List.forall_mem_cons] at each
    have first := (each.1.under e.1).weaken (fun t (loose : Loose good settled t) => loose.1)
      fun t whole => (⟨keeping.below whole, fun _ => whole⟩ : Loose good True t)
    exact (first.bind (ih each.2)).weaken (fun _ loose => loose) fun t loose =>
      ⟨loose.1, fun _ => loose.2 (.inl trivial)⟩

theorem ordered {upserts : List (Option String × Patch)}
    (each : ∀ u ∈ upserts, Contract allowed (·.AllChildren good) (node evaluator u.2) good)
    (place : Nat) :
    Contract allowed (Loose good settled)
      (fun focus root => ordered evaluator upserts place focus root)
      (Loose good (settled ∨ upserts ≠ [])) := by
  induction upserts generalizing settled place with
  | nil =>
    exact Contract.ok.weaken (fun _ loose => loose) fun _ loose =>
      ⟨loose.1, by simpa using loose.2⟩
  | cons u rest ih =>
    rw [List.forall_mem_cons] at each
    have first := (each.1.under (KeyedPatch.upsertLabel place u.1)).weaken
      (fun t (loose : Loose good settled t) => loose.1)
      fun t whole => (⟨keeping.below whole, fun _ => whole⟩ : Loose good True t)
    exact (first.bind (ih each.2 (place + 1))).weaken (fun _ loose => loose) fun t loose =>
      ⟨loose.1, fun _ => loose.2 (.inl trivial)⟩

end Revisits

/-- What the entries, the groups and the upserts leave of the node. -/
theorem keyed {patch : KeyedPatch Patch}
    (each : ∀ p ∈ patch.patches, Contract allowed (·.AllChildren good) (node evaluator p) good) :
    Contract allowed (·.AllChildren good) (fun focus root => keyed evaluator patch focus root)
      (Loose good patch.Settles) := by
  obtain ⟨entries, groups, upserts⟩ := patch
  have nested : ∀ e ∈ entries, Contract allowed good (node evaluator e.2) good := fun e member =>
    (each e.2 (KeyedPatch.mem_patches_of_entry member)).weaken (fun _ => keeping.below)
      fun _ ok => ok
  have entered : Contract allowed (·.AllChildren good)
      (fun focus root => Merge.openMapping focus entries.isEmpty root >>= fun root =>
        Merge.values evaluator entries focus root)
      (Loose good (entries = [] ∨ ∃ e ∈ entries, Position.isToken e.1 = false)) := by
    refine (keeping.openMapping entries.isEmpty).bind ?_
    cases entries with
    | nil => exact Contract.ok.weaken (fun _ opened => opened.1) fun t whole =>
        ⟨keeping.below whole, fun _ => whole⟩
    | cons e rest =>
      refine (keeping.values (fun _ _ => trivial) nested []).weaken (fun t opened => opened.2 rfl)
        fun t holds => ?_
      obtain ⟨children, m, rfl, present, -⟩ := holds
      refine ⟨children, fun settled => keeping.plain ?_ children⟩
      rcases settled with none' | ⟨d, member, noToken⟩
      · cases none'
      · exact Mapping.isPositional_of_key (present d.1 (List.mem_map_of_mem member)) noToken
  have whole := entered.bind ((keeping.revisits fun e member =>
    each e.2 (KeyedPatch.mem_patches_of_group member)).bind (keeping.ordered (fun u member =>
      each u.2 (KeyedPatch.mem_patches_of_upsert member)) 0))
  simp only [bind_assoc] at whole
  refine whole.weaken (fun _ opened => opened) fun t loose => ⟨loose.1, fun settles => loose.2 ?_⟩
  rcases settles with none' | named | revisited | upserted
  · exact .inl (.inl (.inl none'))
  · exact .inl (.inl (.inr named))
  · exact .inl (.inr revisited)
  · exact .inr upserted

section Scripts

variable {payload : PayloadMerge}

/-- The value of an instruction is good: its literal is, and calls yield good values. -/
theorem compute {value : EditValue} (literal : ∀ v, value = .literal v → good v)
    {next : Tree → Focus → Tree → Outcome Tree} {pre post : Tree → Prop}
    (each : ∀ v, good v → Contract allowed pre (next v) post) :
    Contract allowed pre
      (fun focus root => value.compute evaluator root >>= fun v => next v focus root) post := by
  cases value with
  | literal v => exact each v (literal v rfl)
  | computed call =>
    exact .given (fun _ _ failed => keeping.refuses failed) fun _ v yields =>
      each v (keeping.yields yields)

theorem apply {edit : Edit} (literals : ∀ v, edit.value? = some (.literal v) → good v)
    (fills : edit.UsesPayload → Contract allowed good payload good) {items : List Tree}
    (each : ∀ t ∈ items, good t) :
    Contract allowed (· = .list items)
      (fun focus root => edit.apply evaluator payload focus items root) (ListOver good) := by
  have puts : ∀ {changed : List Tree}, (∀ t ∈ changed, good t) →
      Contract allowed (· = .list items) (fun focus root => focus.write (.list changed) root)
        (ListOver good) :=
    fun each => .write ⟨Tree.allChildren_list.mpr each, _, rfl⟩
  have below : edit.UsesPayload → ∀ {position : Nat} {current : List Tree},
      position < current.length → (∀ t ∈ current, good t) → Contract allowed (· = .list current)
        (fun focus root => payload (focus.atIndex position) root) (ListOver good) := by
    intro uses position current within each
    refine ((fills uses).atIndex within).weaken (fun t same => ?_) fun t holds => ?_
    · exact same ▸ ⟨Tree.allChildren_list.mpr each, current, rfl, rfl⟩
    · exact ⟨holds.1, holds.2.imp fun _ both => both.1⟩
  have inserted : ∀ {position : Nat} {value : Tree}, position ≤ items.length → good value →
      ∀ t ∈ items.insertIdx position value, good t := by
    intro position value within fresh t member
    rcases (List.mem_insertIdx within).mp member with rfl | before
    · exact fresh
    · exact each t before
  cases edit with
  | insert requested value =>
    refine .given (fun _ f failed => ?_) fun _ position done => ?_
    · exact Position.forInsertion_eq_error failed ▸ keeping.gaps _ _
    have within := Position.forInsertion_le done
    cases value with
    | none =>
      have fits : position < (items.insertIdx position .null).length := by
        rw [List.length_insertIdx_of_le_length within]
        omega
      have opens : Contract allowed (· = .list items)
          (fun focus root => focus.write (.list (items.insertIdx position .null)) root)
          (· = .list (items.insertIdx position .null)) := .write rfl
      exact opens.bind (below trivial fits (inserted within keeping.blank))
    | some value =>
      exact keeping.compute (fun v same => literals v (congrArg some same)) fun v fresh =>
        puts (inserted within fresh)
  | overwrite requested value =>
    refine .given (fun _ f failed => ?_) fun _ position done => ?_
    · exact Position.ofItem_eq_error failed ▸ keeping.gaps _ _
    cases value with
    | none => exact below trivial (Position.ofItem_lt done) each
    | some value =>
      refine keeping.compute (fun v same => literals v (congrArg some same)) fun v fresh => puts ?_
      intro t member
      rcases List.mem_or_eq_of_mem_set member with before | rfl
      · exact each t before
      · exact fresh
  | remove requested =>
    refine .given (fun _ f failed => ?_) fun _ position done => ?_
    · exact Position.ofItem_eq_error failed ▸ keeping.gaps _ _
    · exact puts fun t member => each t (List.mem_of_mem_eraseIdx member)

theorem run {script : Script}
    (literals : ∀ edit ∈ script, ∀ v, edit.value? = some (.literal v) → good v)
    (fills : ∀ edit ∈ script, edit.UsesPayload → Contract allowed good payload good) :
    Contract allowed (ListOver good) (fun focus root => script.run evaluator payload focus root)
      (ListOver good) := by
  induction script with
  | nil => exact .ok
  | cons edit rest ih =>
    rw [List.forall_mem_cons] at literals fills
    unfold Script.run Focus.items
    simp only [bind_assoc]
    refine .read fun t holds => ?_
    obtain ⟨children, items, rfl⟩ := holds
    exact (keeping.apply literals.1 fills.1 (Tree.allChildren_list.mp children)).bind
      (ih literals.2 fills.2)

end Scripts

/-- A patch that brings good literals makes a good node of every node with good children. -/
theorem node {p : Patch} (brings : p.Everywhere (Patch.Brings good)) :
    Contract allowed (·.AllChildren good) (node evaluator p) good := by
  induction brings with
  | @intro p here within ih =>
    have nested : ∀ c ∈ p.children, Contract allowed good (Merge.node evaluator c) good :=
      fun c member => (ih c member).weaken (fun _ => keeping.below) fun _ ok => ok
    have settled : ∀ t shown : Tree, t.AllChildren good → t.reveal = .ok shown → good shown :=
      fun _ _ => keeping.shown
    cases p with
    | scalar value => exact .settle keeping.gaps (.write here) _ settled
    | fromRoot call =>
      refine .settle keeping.gaps (.given (fun _ _ failed => keeping.refuses failed)
        fun _ value yields => .write (keeping.below (keeping.yields yields))) _ settled
    | fromPrevious call =>
      refine .settle keeping.gaps (.read fun t _ => .given (fun _ _ failed => keeping.refuses failed)
        fun _ value yields => .write (keeping.below (keeping.yields yields))) _ settled
    | list patches =>
      have merges := Contract.items nested (Nat.le_of_eq (Nat.zero_add patches.length))
      exact .settle keeping.gaps ((keeping.openList _).bind merges) _
        fun _ _ holds => keeping.shown holds.1
    | sparse slots =>
      obtain ⟨slots⟩ := slots
      exact .settle keeping.gaps (keeping.sparse fun slot member =>
        nested slot.2 (List.mem_map.mpr ⟨slot, member, rfl⟩)) _
          fun _ _ holds => keeping.shown holds.1
    | edits script payload =>
      have merges := keeping.keyed ih
      refine .settle keeping.gaps (keeping.openScript.bind (keeping.run here.1
        fun edit member uses => merges.weaken (fun _ => keeping.below) fun t loose => ?_)) _
          fun _ _ holds => keeping.shown holds.1
      rcases here.2 edit member uses with settles | always
      · exact loose.2 settles
      · exact always t loose.1
    | keyed patch =>
      exact .settle keeping.gaps (keeping.keyed ih) _ fun _ _ loose => keeping.shown loose.1

end Keeping

end Merge

end ConfigSweep
