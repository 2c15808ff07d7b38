import ConfigSweep.Proofs.Writes

/-!
# Aliases through a whole history

Registrations follow each other on one table. A later one may give an axis another alias, and one
that stops leaves what it wrote until then, but at no time do two axes have the same alias.
-/

namespace ConfigSweep.AliasTable

/-- What is done to a table in its time. -/
inductive Act where
  | register (axes : List Axis)
  | reset

/-- The table after an act; what was registered before a failure stays. -/
def Act.after (t : AliasTable) : Act → AliasTable
  | .register axes =>
    match t.register axes with
    | .ok registered => registered.1
    | .error stopped => stopped.left
  | .reset => .empty

/-- The table after acts in turn, the first of them on a new table. -/
def history (acts : List Act) : AliasTable :=
  acts.foldl Act.after .empty

/-- Every axis owns its alias. Aliases that a registration has replaced may be owned as well. -/
structure Claimed (owners : Owners) (t : AliasTable) : Prop where
  sorted : t.keys.Sorted
  owns : ∀ {key name}, t.aliasOf? key = some name → owners.get? name = some key

section Step

variable {owners owners' : Owners} {t : AliasTable}

theorem Claimed.unshared (owned : Claimed owners t) : t.Unshared where
  sorted := owned.sorted
  apart := fun first second => Option.some.inj ((owned.owns first).symm.trans (owned.owns second))

theorem Unshared.claimed (unshared : t.Unshared) : Claimed t.owners t where
  sorted := unshared.sorted
  owns := (unshared.read _ _).mpr

theorem unshared_empty : AliasTable.empty.Unshared where
  sorted := Table.sorted_empty
  apart := by
    intro k l name found
    cases found

/-- An alias that can be claimed for an axis takes the place of the one that it had. -/
theorem Claimed.claim (owned : Claimed owners t) {name : String} {key : AxisKey}
    (done : AliasTable.claim name key owners = .ok owners') :
    Claimed owners' (t.setKey key name) := by
  refine ⟨Table.sorted_insert owned.sorted _ _, fun {other probe} found => ?_⟩
  rw [aliasOf?_setKey] at found
  rcases claim_eq_ok.mp done with ⟨free, rfl⟩ | ⟨owner, rfl⟩
  · rw [Table.get?_insert]
    by_cases named : probe = name
    · subst named
      rw [if_pos rfl]
      split at found
      · next here => rw [here]
      · rw [owned.owns found] at free
        cases free
    · rw [if_neg named]
      split at found
      · exact absurd (Option.some.inj found).symm named
      · exact owned.owns found
  · split at found
    · next here => rw [here, ← Option.some.inj found, owner]
    · exact owned.owns found

theorem Claimed.registerIdentifier (owned : Claimed owners t) {axis : Axis}
    {named : AliasTable} (done : t.registerIdentifier axis owners = .ok (owners', named)) :
    Claimed owners' named := by
  unfold AliasTable.registerIdentifier at done
  split at done
  · obtain ⟨rfl, rfl⟩ := Prod.mk.inj (Except.ok.inj done)
    exact owned
  · obtain ⟨_, claims, done⟩ := bind_eq_ok.mp done
    obtain ⟨rfl, rfl⟩ := Prod.mk.inj (Except.ok.inj done)
    exact owned.claim claims
  · cases done

/-- Writes for values do not touch aliases of axes. -/
theorem Claimed.keptByValues (owners : Owners) : KeptByValues (Claimed owners) where
  value _ _ owned := ⟨owned.sorted, owned.owns⟩
  mark _ owned := ⟨owned.sorted, owned.owns⟩

/-- Every axis owns its alias after registrations, and no alias is shared where they stop. -/
def Settled : Except (Stopped AliasTable) Registration → Prop
  | .ok r => Claimed r.owners r.table
  | .error stopped => stopped.left.Unshared

theorem Claimed.registerDeclared (axes : List Axis) :
    ∀ {owners : Owners} {t : AliasTable}, Claimed owners t →
      Settled (AliasTable.registerDeclared axes owners t) := by
  induction axes with
  | nil => exact fun owned => owned
  | cons axis rest ih =>
    intro owners t owned
    rw [AliasTable.registerDeclared]
    split
    · exact owned.unshared
    next claimed named identified =>
    have valued :=
      (Claimed.keptByValues claimed).registerValues (owned.registerIdentifier identified)
      axis.key (axis.declaration.remove Keyword.identifier)
    cases values : named.registerValues axis.key (axis.declaration.remove Keyword.identifier) with
    | error stopped =>
      rw [values] at valued
      exact Claimed.unshared valued
    | ok registered =>
      rw [values] at valued
      have later := ih valued
      dsimp only [bind, Except.bind]
      cases continues : AliasTable.registerDeclared rest claimed registered.1 with
      | error stopped =>
        rw [continues] at later
        exact later
      | ok r =>
        rw [continues] at later
        exact later

theorem Claimed.claimDerived {trie : TokenTrie} {keys : List AxisKey}
    {derived : List (AxisKey × String)} (owned : Claimed owners t)
    (done : AliasTable.claimDerived trie keys owners = .ok derived) :
    (t.setKeys derived).Unshared := by
  induction keys generalizing owners t derived with
  | nil =>
    obtain rfl := Except.ok.inj done
    exact owned.unshared
  | cons key rest ih =>
    obtain ⟨claimed, claims, done⟩ := bind_eq_ok.mp done
    obtain ⟨later, continues, done⟩ := bind_eq_ok.mp done
    obtain rfl := Except.ok.inj done
    rw [setKeys_cons]
    exact ih (owned.claim claims) continues

/-- A registration keeps aliases unshared, whether it ends or stops. -/
theorem Unshared.register (unshared : t.Unshared) (axes : List Axis) :
    Leaves Unshared Prod.fst (t.register axes) := by
  have declared := unshared.claimed.registerDeclared axes
  unfold AliasTable.register
  cases registers : AliasTable.registerDeclared axes t.owners t with
  | error stopped =>
    rw [registers] at declared
    exact declared
  | ok r =>
    rw [registers] at declared
    dsimp only [bind, Except.bind]
    split
    · exact Claimed.unshared declared
    · next derived claims => exact declared.claimDerived claims

theorem Unshared.after (unshared : t.Unshared) (act : Act) : (act.after t).Unshared := by
  cases act with
  | register axes =>
    have registered := unshared.register axes
    unfold Act.after
    dsimp only
    generalize t.register axes = outcome at registered ⊢
    cases outcome with
    | ok result => exact registered
    | error stopped => exact registered
  | reset => exact unshared_empty

end Step

theorem unshared_history (acts : List Act) : (history acts).Unshared :=
  List.foldlRecOn acts Act.after unshared_empty fun _ unshared act _ => unshared.after act

/-- A choice is understood when its name has an owner. An axis with value aliases takes known ones,
any other axis takes every value for itself. -/
theorem resolveChoice_eq_ok {owners : Owners} {t : AliasTable} {name : String} {said meant : Tree}
    {key : AxisKey} : t.resolveChoice owners name said = .ok (key, meant) ↔
      owners.get? name = some key ∧
        if t.isAliased key then ∃ text, said = .str text ∧ t.values.get? text = some meant
        else said = meant := by
  unfold resolveChoice
  cases owners.get? name with
  | none => simp [fail]
  | some owner =>
    by_cases same : owner = key
    · subst same
      dsimp only
      cases t.isAliased owner with
      | false => simp
      | true =>
        cases said with
        | str text => cases known : t.values.get? text <;> simp [Tree.text?, known, fail]
        | _ => simp [Tree.text?, fail]
    · refine iff_of_false (fun chosen => ?_) fun both => same (Option.some.inj both.1)
      dsimp only at chosen
      split at chosen
      · split at chosen
        · exact same (Prod.mk.inj (Except.ok.inj chosen)).1
        · cases chosen
      · exact same (Prod.mk.inj (Except.ok.inj chosen)).1

/-- What an assignment is resolved to belongs, name by name, to the axes with these aliases. -/
theorem Unshared.resolve {t : AliasTable} (unshared : t.Unshared) {assignment : Mapping Tree}
    {values : List (AxisKey × Tree)} (done : t.resolve assignment = .ok values) :
    List.Forall₂ (fun e v => ∀ key, t.aliasOf? key = some e.1 ↔ key = v.1) assignment values := by
  refine (mapM_eq_ok.mp done).imp fun e v chosen key => ?_
  have owner := (resolveChoice_eq_ok.mp chosen).1
  rw [← unshared.read, owner, Option.some.injEq, eq_comm]

/-- At no time in a history do two axes have the same alias, so every alias that is resolved stands
for exactly one axis. -/
theorem history_aliases_apart (acts : List Act) :
    (∀ a ∈ (history acts).keys.entries, ∀ b ∈ (history acts).keys.entries, a.2 = b.2 → a.1 = b.1) ∧
      ∀ assignment values, (history acts).resolve assignment = .ok values →
        List.Forall₂ (fun e v => ∀ key, (history acts).aliasOf? key = some e.1 ↔ key = v.1)
          assignment values := by
  have unshared := unshared_history acts
  refine ⟨fun a first b second same => ?_, fun _ _ done => unshared.resolve done⟩
  have ownsA : (history acts).aliasOf? ⟨a.1⟩ = some a.2 := unshared.sorted.mem_entries_iff.mp first
  have ownsB : (history acts).aliasOf? ⟨b.1⟩ = some b.2 := unshared.sorted.mem_entries_iff.mp second
  exact congrArg AxisKey.text (unshared.apart (same ▸ ownsA) ownsB)

-- the second registration stops at `b`, after it gave `a` another alias
example : (history [.register [⟨⟨"a"⟩, [("sweep_identifier", .str "x")]⟩],
    .register [⟨⟨"a"⟩, [("sweep_identifier", .str "y")]⟩, ⟨⟨"b"⟩, [("sweep_identifier", .str "x")]⟩]]).keys
      = ⟨[("a", "y")]⟩ := by
  decide

end ConfigSweep.AliasTable
