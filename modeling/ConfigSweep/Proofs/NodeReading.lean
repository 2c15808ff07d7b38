import ConfigSweep.Patch.Classify
import ConfigSweep.Proofs.IndexedScript
import ConfigSweep.Proofs.Recognition

/-!
# What nodes are read as

A node is read by its kind, and a mapping by its keys. `Patch.NodeFrom` has one rule for each patch
that a node can be read as, `Patch.DirectiveFrom` one for each form of an upsert directive, and
`Edit.InstructionFrom` one for each operation of a script; `Patch.ofTreeAt_iff`, `Patch.upsertsOf_iff`
and `Edit.ofTree_iff` say that these are all readings that succeed.
-/

namespace ConfigSweep

namespace Edit

/-- An argument, and the position and the value that it is read as, whatever the operation is. -/
inductive ArgumentFrom : Tree → Int → Option EditValue → Prop where
  | position {t : Tree} {n : Int} (counts : t.index? = some n) : ArgumentFrom t n none
  | pair {first second : Tree} {n : Int} {value : EditValue} (counts : first.index? = some n)
      (read : EditValue.ofTree second = .ok value) : ArgumentFrom (.list [first, second]) n (some value)

theorem positionAndValue_iff {operation : String} {t : Tree} {n : Int} {value : Option EditValue} :
    positionAndValue operation t = .ok (n, value) ↔ ArgumentFrom t n value := by
  constructor
  · intro done
    unfold positionAndValue at done
    split at done
    · split at done
      · cases done
      · next counts =>
        obtain ⟨v, read, done⟩ := bind_eq_ok.mp done
        obtain ⟨rfl, rfl⟩ := Prod.mk.inj (Except.ok.inj done)
        exact .pair counts read
    · cases done
    · split at done
      · cases done
      · next counts =>
        obtain ⟨rfl, rfl⟩ := Prod.mk.inj (Except.ok.inj done)
        exact .position counts
  · intro argument
    cases argument with
    | position counts =>
      cases t with
      | list items => cases counts
      | _ => rw [positionAndValue, counts] <;> nofun
    | pair counts read =>
      rw [positionAndValue, counts]
      exact bind_eq_ok.mpr ⟨_, read, rfl⟩

/-- A tree and the instruction that it is read as. -/
inductive InstructionFrom : Tree → Edit → Prop where
  | insert {operation : String} {argument shown : Tree} {n : Int} {value : Option EditValue}
      (named : operation = Keyword.insert) (reveals : argument.revealAll = .ok shown)
      (read : ArgumentFrom shown n value) :
      InstructionFrom (.mapping [(operation, argument)]) (.insert n value)
  | overwrite {operation : String} {argument shown : Tree} {n : Int} {value : Option EditValue}
      (named : operation = Keyword.overwrite) (reveals : argument.revealAll = .ok shown)
      (read : ArgumentFrom shown n value) :
      InstructionFrom (.mapping [(operation, argument)]) (.overwrite n value)
  | remove {operation : String} {argument shown : Tree} {n : Int}
      (named : operation = Keyword.remove) (reveals : argument.revealAll = .ok shown)
      (counts : shown.index? = some n) :
      InstructionFrom (.mapping [(operation, argument)]) (.remove n)

theorem instructionFrom_of_ofTree {t : Tree} {edit : Edit} (done : ofTree t = .ok edit) :
    InstructionFrom t edit := by
  unfold ofTree at done
  split at done
  · obtain ⟨shown, reveals, done⟩ := bind_eq_ok.mp done
    rw [Stopped.outcome_eq_ok] at reveals
    unfold ofOperation at done
    split at done
    · next named =>
      obtain ⟨⟨n, value⟩, read, done⟩ := bind_eq_ok.mp done
      obtain rfl := Except.ok.inj done
      exact .insert named reveals (positionAndValue_iff.mp read)
    · split at done
      · next named =>
        obtain ⟨⟨n, value⟩, read, done⟩ := bind_eq_ok.mp done
        obtain rfl := Except.ok.inj done
        exact .overwrite named reveals (positionAndValue_iff.mp read)
      · split at done
        · next named =>
          split at done
          · cases done
          · next counts =>
            obtain rfl := Except.ok.inj done
            exact .remove named reveals counts
        · cases done
  · cases done
  · cases done

theorem ofTree_of_instructionFrom {t : Tree} {edit : Edit} (instruction : InstructionFrom t edit) :
    ofTree t = .ok edit := by
  cases instruction with
  | insert named reveals read =>
    refine bind_eq_ok.mpr ⟨_, Stopped.outcome_eq_ok.mpr reveals, ?_⟩
    rw [ofOperation, if_pos named]
    exact bind_eq_ok.mpr ⟨_, positionAndValue_iff.mpr read, rfl⟩
  | overwrite named reveals read =>
    refine bind_eq_ok.mpr ⟨_, Stopped.outcome_eq_ok.mpr reveals, ?_⟩
    rw [ofOperation, if_neg (by rw [named]; decide), if_pos named]
    exact bind_eq_ok.mpr ⟨_, positionAndValue_iff.mpr read, rfl⟩
  | remove named reveals counts =>
    refine bind_eq_ok.mpr ⟨_, Stopped.outcome_eq_ok.mpr reveals, ?_⟩
    rw [ofOperation, if_neg (by rw [named]; decide), if_neg (by rw [named]; decide), if_pos named,
      counts]

/-- An instruction can be read exactly by the rules for operations. -/
theorem ofTree_iff {t : Tree} {edit : Edit} : ofTree t = .ok edit ↔ InstructionFrom t edit :=
  ⟨instructionFrom_of_ofTree, ofTree_of_instructionFrom⟩

end Edit

/-- Every instruction of a script is read from a value inside it. -/
theorem Script.exists_child_of_ofTree {t : Tree} {script : Script} (done : Script.ofTree t = .ok script) :
    ∀ edit ∈ script, ∃ c ∈ t.children, Edit.ofTree c.2 = .ok edit := by
  intro edit member
  cases t with
  | list items =>
    obtain ⟨item, inside, read⟩ := exists_left (mapM_eq_ok.mp done) edit member
    obtain ⟨_, child⟩ := Tree.exists_child_of_item inside
    exact ⟨_, child, read⟩
  | mapping entries =>
    obtain ⟨instructions, ordered, edits⟩ := bind_eq_ok.mp done
    obtain ⟨item, inside, read⟩ := exists_left (mapM_eq_ok.mp edits) edit member
    obtain ⟨e, among, rfl⟩ := Script.mem_inOrder ordered item inside
    exact ⟨_, Tree.child_of_entry among, read⟩
  | _ => cases done

/-- Removing a key takes no notice of the values. -/
theorem Mapping.remove_map {α β : Type} (key : String) (f : String × α → β) (m : Mapping α) :
    remove key (m.map fun e => (e.1, f e)) = (remove key m).map fun e => (e.1, f e) := by
  induction m with
  | nil => rfl
  | cons e rest ih =>
    rw [List.map_cons, remove, remove]
    split
    · rw [List.getLast?_map]
      cases rest.getLast? with
      | none => rfl
      | some last => simp [List.map_dropLast]
    · rw [List.map_cons, ih]

namespace Patch

theorem located_eq_ok {α : Type} {trail : Trail} {patch : Tree} {outcome : Outcome α} {a : α} :
    outcome.located trail patch = .ok a ↔ outcome = .ok a := by
  cases outcome <;> simp [Outcome.located]

section Entries

variable {trail : Trail} {entries : List (String × Tree)}

/-- What one entry of a mapping is read as. -/
def partOf (trail : Trail) (e : String × Tree) : Outcome Part :=
  if Keyword.isGroup e.1 then Part.group e.1 <$> ofTreeAt e.2 (trail.child e.1)
  else if e.1 = Keyword.upsert then Part.upserts <$> upsertsOf e.2 (trail.child e.1)
  else Part.plain e.1 <$> ofTreeAt e.2 (trail.child e.1)

theorem partsOf_eq (entries : List (String × Tree)) (trail : Trail) :
    partsOf entries trail = entries.map fun e => (e.1, partOf trail e) := by
  induction entries with
  | nil => rfl
  | cons e rest ih =>
    rw [partsOf, ih, List.map_cons]
    rfl

/-- An entry and the part that it is read as. -/
inductive PartFrom (trail : Trail) (e : String × Tree) : Part → Prop where
  | group (p : Patch) (named : Keyword.isGroup e.1 = true)
      (reads : ofTreeAt e.2 (trail.child e.1) = .ok p) : PartFrom trail e (.group e.1 p)
  | upserts (us : List (Option String × Patch)) (named : e.1 = Keyword.upsert)
      (reads : upsertsOf e.2 (trail.child e.1) = .ok us) : PartFrom trail e (.upserts us)
  | plain (p : Patch) (single : Keyword.isGroup e.1 = false) (named : e.1 ≠ Keyword.upsert)
      (reads : ofTreeAt e.2 (trail.child e.1) = .ok p) : PartFrom trail e (.plain e.1 p)

theorem partOf_eq_ok {e : String × Tree} {part : Part} :
    partOf trail e = .ok part ↔ PartFrom trail e part := by
  constructor
  · intro done
    unfold partOf at done
    split at done
    · next group =>
      obtain ⟨p, reads, rfl⟩ := map_eq_ok.mp done
      exact .group p group reads
    · next single =>
      split at done
      · next named =>
        obtain ⟨us, reads, rfl⟩ := map_eq_ok.mp done
        exact .upserts us named reads
      · next named =>
        obtain ⟨p, reads, rfl⟩ := map_eq_ok.mp done
        exact .plain p (by simpa using single) named reads
  · intro from'
    unfold partOf
    cases from' with
    | group p named reads => rw [if_pos named, reads]; rfl
    | upserts us named reads =>
      rw [if_neg (by rw [named]; decide), if_pos named, reads]
      rfl
    | plain p single named reads => rw [if_neg (by simp [single]), if_neg named, reads]; rfl

/-- Entries and the parts that they are read as. -/
abbrev PartsFrom (trail : Trail) : List (String × Tree) → List Part → Prop :=
  List.Forall₂ (PartFrom trail)

/-- A mapping can be read when each of its entries can. -/
theorem sequenceParts_eq_ok {parts : List Part} :
    sequenceParts (entries.map fun e => (e.1, partOf trail e)) = .ok parts ↔
      PartsFrom trail entries parts := by
  induction entries generalizing parts with
  | nil => simp [sequenceParts, eq_comm]
  | cons e rest ih =>
    rw [List.map_cons, sequenceParts, PartsFrom, List.forall₂_cons_left_iff]
    constructor
    · intro done
      obtain ⟨part, first, done⟩ := bind_eq_ok.mp done
      obtain ⟨more, later, done⟩ := bind_eq_ok.mp done
      obtain rfl := Except.ok.inj done
      exact ⟨part, more, partOf_eq_ok.mp first, ih.mp later, rfl⟩
    · rintro ⟨part, more, first, later, rfl⟩
      exact bind_eq_ok.mpr ⟨part, partOf_eq_ok.mpr first, bind_eq_ok.mpr ⟨more, ih.mpr later, rfl⟩⟩

/-- Entries and the patches that their values are read as, each at the trail of its key. -/
abbrev NamedFrom (below : String → Trail) : List (String × Tree) → List (String × Patch) → Prop :=
  List.Forall₂ fun e n => e.1 = n.1 ∧ ofTreeAt e.2 (below e.1) = .ok n.2

theorem NamedFrom.keys {below : String → Trail} {named : List (String × Patch)}
    (read : NamedFrom below entries named) : Mapping.keys entries = Mapping.keys named :=
  map_eq_of_forall₂ (read.imp fun _ _ both => both.1)

/-- The patches of a mapping are those of its values, in the same order. -/
theorem ofNamed_eq_ok {named : List (String × Patch)} :
    ofNamed entries trail = .ok named ↔ NamedFrom trail.child entries named := by
  induction entries generalizing named with
  | nil => simp [ofNamed, eq_comm]
  | cons e rest ih =>
    rw [ofNamed, NamedFrom, List.forall₂_cons_left_iff]
    constructor
    · intro done
      obtain ⟨p, first, done⟩ := bind_eq_ok.mp done
      obtain ⟨more, later, done⟩ := bind_eq_ok.mp done
      obtain rfl := Except.ok.inj done
      exact ⟨(e.1, p), more, ⟨rfl, first⟩, ih.mp later, rfl⟩
    · rintro ⟨⟨key, p⟩, more, ⟨rfl, first⟩, later, rfl⟩
      exact bind_eq_ok.mpr ⟨p, first, bind_eq_ok.mpr ⟨more, ih.mpr later, rfl⟩⟩

/-- The trail of the position that a key stands for. -/
abbrev slotTrail (trail : Trail) (key : String) : Trail :=
  trail.child (toString ((Position.ofToken? key).getD 0))

/-- The slots of a mapping hold the patches that its values are read as. -/
theorem ofSlots_eq_ok (tokens : ∀ e ∈ entries, Position.isToken e.1 = true)
    {slots : SparseList Patch} : ofSlots entries trail .empty = .ok slots ↔
      ∃ named, NamedFrom (slotTrail trail) entries named ∧ slots = SparseList.ofEntries named := by
  have folded : ∀ (entries : List (String × Tree)), (∀ e ∈ entries, Position.isToken e.1 = true) →
      ∀ start : SparseList Patch, ofSlots entries trail start = .ok slots ↔
        ∃ named, NamedFrom (slotTrail trail) entries named ∧
          slots = named.foldl SparseList.step start := by
    intro entries
    induction entries with
    | nil =>
      intro _ start
      simp [ofSlots, eq_comm]
    | cons e rest ih =>
      intro tokens start
      rw [List.forall_mem_cons] at tokens
      obtain ⟨position, token⟩ := Option.isSome_iff_exists.mp tokens.1
      have placed : ∀ p, SparseList.step start (e.1, p) = start.set ((Position.ofToken? e.1).getD 0) p := by
        intro p
        unfold SparseList.step
        rw [token]
        rfl
      rw [ofSlots]
      constructor
      · intro done
        obtain ⟨p, first, later⟩ := bind_eq_ok.mp done
        obtain ⟨named, reads, rfl⟩ := (ih tokens.2 _).mp later
        refine ⟨(e.1, p) :: named, .cons ⟨rfl, first⟩ reads, ?_⟩
        rw [List.foldl_cons, placed]
      · rintro ⟨named, reads, rfl⟩
        obtain ⟨⟨key, p⟩, more, ⟨rfl, first⟩, later, rfl⟩ := List.forall₂_cons_left_iff.mp reads
        refine bind_eq_ok.mpr ⟨p, first, (ih tokens.2 _).mpr ⟨more, later, ?_⟩⟩
        rw [List.foldl_cons, placed]
  exact folded entries tokens .empty

end Entries

section Nodes

variable {trail : Trail}

section Items

variable {items : List Tree} {start : Nat} {ps : List Patch}

/-- The patches of a list are those of its items. -/
theorem ofItems_from (done : ofItems items start trail = .ok ps) :
    List.Forall₂ (fun t p => ∃ trail, ofTreeAt t trail = .ok p) items ps := by
  induction items generalizing start ps with
  | nil =>
    obtain rfl := Except.ok.inj done
    exact .nil
  | cons t ts ih =>
    obtain ⟨p, first, done⟩ := bind_eq_ok.mp done
    obtain ⟨rest, later, done⟩ := bind_eq_ok.mp done
    obtain rfl := Except.ok.inj done
    exact .cons ⟨_, first⟩ (ih later)

/-- A list is read as soon as its items are read wherever they stand. -/
theorem ofItems_of_forall₂ (read : List.Forall₂ (fun t p => ∀ trail, ofTreeAt t trail = .ok p) items ps) :
    ofItems items start trail = .ok ps := by
  induction read generalizing start with
  | nil => rfl
  | cons first rest ih =>
    exact bind_eq_ok.mpr ⟨_, first _, bind_eq_ok.mpr ⟨_, ih, rfl⟩⟩

end Items

section Mappings

variable {entries : Mapping Tree} {p : Patch}

/-- A mapping from position tokens is read at the positions of its keys. -/
theorem ofTreeAt_sparse_eq_ok (kind : reading entries = .sparse) :
    ofTreeAt (.mapping entries) trail = .ok p ↔
      ∃ named, NamedFrom (slotTrail trail) entries named ∧ .sparse (.ofEntries named) = p := by
  rw [ofTreeAt, located_eq_ok, kind]
  dsimp only
  rw [map_eq_ok]
  simp only [ofSlots_eq_ok (isToken_of_reading_sparse kind)]
  constructor
  · rintro ⟨slots, ⟨named, read, rfl⟩, rfl⟩
    exact ⟨named, read, rfl⟩
  · rintro ⟨named, read, rfl⟩
    exact ⟨_, ⟨named, read, rfl⟩, rfl⟩

/-- Beside a script the other entries are read as its payload. -/
theorem ofTreeAt_script_eq_ok {operations : Tree} (kind : reading entries = .script operations) :
    ofTreeAt (.mapping entries) trail = .ok p ↔
      ∃ script, Script.ofTree operations = .ok script ∧
        ∃ parts, PartsFrom trail (Mapping.remove Keyword.operations entries) parts ∧
          .edits script (ofParts parts) = p := by
  rw [ofTreeAt, located_eq_ok, kind, partsOf_eq, Mapping.remove_map]
  simp only [bind_eq_ok, sequenceParts_eq_ok, pure, Except.pure, Except.ok.injEq]

/-- Any other mapping is read entry by entry. -/
theorem ofTreeAt_keyed_eq_ok (kind : reading entries = .keyed) :
    ofTreeAt (.mapping entries) trail = .ok p ↔
      ∃ parts, PartsFrom trail entries parts ∧ .keyed (ofParts parts) = p := by
  rw [ofTreeAt, located_eq_ok, kind, partsOf_eq]
  simp only [bind_eq_ok, sequenceParts_eq_ok, pure, Except.pure, Except.ok.injEq]

end Mappings

/-- A tree and the patch that it is read as. -/
inductive NodeFrom (trail : Trail) : Tree → Patch → Prop where
  | scalar {t : Tree} (leaf : t.isLeaf = true)
      (plain : ∀ text, t = .str text → embeddedCall? text = none) : NodeFrom trail t (.scalar t)
  | fromPrevious {text name : String} (embedded : embeddedCall? text = some name) :
      NodeFrom trail (.str text) (.fromPrevious (.named (Text.trimmed name)))
  | fromRoot {entries : Mapping Tree} {payload : Tree} {call : Call}
      (kind : reading entries = .call payload) (read : Call.ofTree payload = .ok call) :
      NodeFrom trail (.mapping entries) (.fromRoot call)
  | list {items : List Tree} {ps : List Patch} (read : ofItems items 0 trail = .ok ps) :
      NodeFrom trail (.list items) (.list ps)
  | sparse {entries : Mapping Tree} {named : List (String × Patch)}
      (kind : reading entries = .sparse) (read : NamedFrom (slotTrail trail) entries named) :
      NodeFrom trail (.mapping entries) (.sparse (.ofEntries named))
  | edits {entries : Mapping Tree} {operations : Tree} {script : Script} {parts : List Part}
      (kind : reading entries = .script operations) (scripted : Script.ofTree operations = .ok script)
      (read : PartsFrom trail (Mapping.remove Keyword.operations entries) parts) :
      NodeFrom trail (.mapping entries) (.edits script (ofParts parts))
  | keyed {entries : Mapping Tree} {parts : List Part}
      (kind : reading entries = .keyed) (read : PartsFrom trail entries parts) :
      NodeFrom trail (.mapping entries) (.keyed (ofParts parts))

theorem NodeFrom.text (text : String) : NodeFrom trail (.str text) (ofText text) := by
  unfold ofText
  cases embedded : embeddedCall? text with
  | some name => exact .fromPrevious embedded
  | none => exact .scalar rfl fun _ same => Tree.str.inj same ▸ embedded

theorem nodeFrom_of_ofTreeAt {t : Tree} {p : Patch} (done : ofTreeAt t trail = .ok p) :
    NodeFrom trail t p := by
  cases t with
  | str text =>
    rw [ofTreeAt, located_eq_ok] at done
    obtain rfl := Except.ok.inj done
    exact .text text
  | list items =>
    obtain ⟨ps, read, rfl⟩ := map_eq_ok.mp (located_eq_ok.mp done)
    exact .list read
  | mapping entries =>
    cases kind : reading entries with
    | sparse =>
      obtain ⟨named, read, rfl⟩ := (ofTreeAt_sparse_eq_ok kind).mp done
      exact .sparse kind read
    | script operations =>
      obtain ⟨script, scripted, parts, read, rfl⟩ := (ofTreeAt_script_eq_ok kind).mp done
      exact .edits kind scripted read
    | keyed =>
      obtain ⟨parts, read, rfl⟩ := (ofTreeAt_keyed_eq_ok kind).mp done
      exact .keyed kind read
    | call payload =>
      rw [ofTreeAt, located_eq_ok, kind] at done
      obtain ⟨call, read, rfl⟩ := map_eq_ok.mp done
      exact .fromRoot kind read
    | crowdedCall =>
      rw [ofTreeAt, located_eq_ok, kind] at done
      cases done
    | axis =>
      rw [ofTreeAt, located_eq_ok, kind] at done
      cases done
  | _ =>
    obtain rfl := Except.ok.inj done
    exact .scalar rfl nofun

theorem ofTreeAt_of_nodeFrom {t : Tree} {p : Patch} (node : NodeFrom trail t p) :
    ofTreeAt t trail = .ok p := by
  cases node with
  | scalar leaf plain =>
    cases t with
    | str text => rw [ofTreeAt, located_eq_ok, ofText, plain text rfl]
    | list items => cases leaf
    | mapping entries => cases leaf
    | _ => rfl
  | fromPrevious embedded => rw [ofTreeAt, located_eq_ok, ofText, embedded]
  | fromRoot kind read =>
    rw [ofTreeAt, located_eq_ok, kind]
    exact map_eq_ok.mpr ⟨_, read, rfl⟩
  | list read => exact located_eq_ok.mpr (map_eq_ok.mpr ⟨_, read, rfl⟩)
  | sparse kind read => exact (ofTreeAt_sparse_eq_ok kind).mpr ⟨_, read, rfl⟩
  | edits kind scripted read => exact (ofTreeAt_script_eq_ok kind).mpr ⟨_, scripted, _, read, rfl⟩
  | keyed kind read => exact (ofTreeAt_keyed_eq_ok kind).mpr ⟨_, read, rfl⟩

/-- A tree can be read exactly by the rules for nodes. -/
theorem ofTreeAt_iff {t : Tree} {p : Patch} : ofTreeAt t trail = .ok p ↔ NodeFrom trail t p :=
  ⟨nodeFrom_of_ofTreeAt, ofTreeAt_of_nodeFrom⟩

/-- An upsert directive and the upserts that it is read as. -/
inductive DirectiveFrom (trail : Trail) : Tree → List (Option String × Patch) → Prop where
  | items {items : List Tree} {ps : List Patch} (read : ofItems items 0 trail = .ok ps) :
      DirectiveFrom trail (.list items) (ps.map fun p => (none, p))
  | named {entries : Mapping Tree} {named : List (String × Patch)}
      (read : NamedFrom trail.child entries named) :
      DirectiveFrom trail (.mapping entries) (orderUpserts named)

/-- An upsert directive can be read exactly by the rules for directives. -/
theorem upsertsOf_iff {t : Tree} {us : List (Option String × Patch)} :
    upsertsOf t trail = .ok us ↔ DirectiveFrom trail t us := by
  constructor
  · intro done
    cases t with
    | list items =>
      obtain ⟨ps, read, done⟩ := bind_eq_ok.mp done
      obtain rfl := Except.ok.inj done
      exact .items read
    | mapping entries =>
      obtain ⟨named, read, done⟩ := bind_eq_ok.mp done
      obtain rfl := Except.ok.inj done
      exact .named (ofNamed_eq_ok.mp read)
    | _ => cases done
  · intro directive
    cases directive with
    | items read => exact bind_eq_ok.mpr ⟨_, read, rfl⟩
    | named read => exact bind_eq_ok.mpr ⟨_, ofNamed_eq_ok.mpr read, rfl⟩

end Nodes

end Patch

end ConfigSweep
