import ConfigSweep.AliasTable
import ConfigSweep.Proofs.Equality
import ConfigSweep.Proofs.Location
import ConfigSweep.Proofs.Outcome
import ConfigSweep.Proofs.Table

/-!
# What a registration leaves in an alias table

Every registered axis gets an alias of its own, and no alias is given to two axes. The aliases that
an axis declares for its values lead to those values, up to the order of mapping keys.
-/

namespace ConfigSweep

/-- What can be said for an axis and what is meant by it: any value for itself when the axis has no
value aliases, else an alias for the value at its place. -/
def Axis.Offers (declaration : Mapping Tree) (said meant : Tree) : Prop :=
  match Mapping.get? Keyword.valueAliases declaration with
  | none => said = meant
  | some aliases => ∃ names values, aliases = .list names ∧
      Mapping.get? "values" declaration = some (.list values) ∧ (said, meant) ∈ names.zip values

namespace AliasTable

/-- No two axes have the same alias. -/
structure Unshared (t : AliasTable) : Prop where
  sorted : t.keys.Sorted
  apart : ∀ {k l name}, t.aliasOf? k = some name → t.aliasOf? l = some name → k = l

/-- The owners of aliases and the aliases of axes are the same pairs. -/
structure Owned (owners : Owners) (t : AliasTable) : Prop where
  sorted : t.keys.Sorted
  agree : ∀ name key, owners.get? name = some key ↔ t.aliasOf? key = some name

section Names

theorem aliasOf?_setKey (key probe : AxisKey) (name : String) (t : AliasTable) :
    (t.setKey key name).aliasOf? probe = if probe = key then some name else t.aliasOf? probe := by
  have texts : probe.text = key.text ↔ probe = key := by
    cases probe
    cases key
    simp
  simp only [aliasOf?, setKey, Table.get?_insert, texts]

theorem owned_empty (remainder : Tree) : Owned .empty { remainder := remainder } where
  sorted := Table.sorted_empty
  agree := by
    intro name key
    simp [aliasOf?]

/-- An alias can be claimed that is free or that the axis owns already. -/
theorem claim_eq_ok {owners claimed : Owners} {name : String} {key : AxisKey} :
    claim name key owners = .ok claimed ↔
      (owners.get? name = none ∧ claimed = owners.insert name key) ∨
        (owners.get? name = some key ∧ claimed = owners) := by
  unfold claim
  cases owner : owners.get? name with
  | none => simp [eq_comm]
  | some other =>
    by_cases same : other = key
    · simp [same, eq_comm]
    · simp [same, fail]

/-- An alias that can be claimed for an axis without one keeps owners and aliases in step. -/
theorem Owned.claim {owners claimed : Owners} {t : AliasTable} {name : String} {key : AxisKey}
    (owned : Owned owners t) (fresh : t.aliasOf? key = none)
    (done : AliasTable.claim name key owners = .ok claimed) : Owned claimed (t.setKey key name) := by
  have free : owners.get? name = none ∧ claimed = owners.insert name key := by
    rcases claim_eq_ok.mp done with free | ⟨owner, -⟩
    · exact free
    · rw [owned.agree, fresh] at owner
      cases owner
  obtain ⟨unowned, rfl⟩ := free
  refine ⟨Table.sorted_insert owned.sorted _ _, fun probe other => ?_⟩
  rw [Table.get?_insert, aliasOf?_setKey]
  by_cases here : other = key
  · subst here
    by_cases named : probe = name
    · simp [named]
    · have absent : ¬ owners.get? probe = some other := by
        rw [owned.agree, fresh]
        simp
      simp [named, absent, Ne.symm named]
  · by_cases named : probe = name
    · subst named
      have absent : ¬ t.aliasOf? other = some probe := by
        rw [← owned.agree, unowned]
        simp
      simp [here, Ne.symm here, absent]
    · simp [here, named, owned.agree]

/-- The owners read off a table are the axes that have the aliases. -/
theorem Unshared.read {t : AliasTable} (unshared : t.Unshared) (name : String) (key : AxisKey) :
    t.owners.get? name = some key ↔ t.aliasOf? key = some name := by
  have names : (Mapping.keys (t.keys.entries.map fun e => (e.2, AxisKey.mk e.1))).Nodup := by
    have different : t.keys.entries.Pairwise fun a b => a.2 ≠ b.2 := by
      refine unshared.sorted.imp_of_mem fun {a b} first second less same => ?_
      have ownsA : t.aliasOf? ⟨a.1⟩ = some a.2 := unshared.sorted.mem_entries_iff.mp first
      have ownsB : t.aliasOf? ⟨b.1⟩ = some b.2 := unshared.sorted.mem_entries_iff.mp second
      have equal : a.1 = b.1 := congrArg AxisKey.text (unshared.apart (same ▸ ownsA) ownsB)
      exact String.lt_irrefl a.1 (equal ▸ less)
    simpa [Mapping.keys, List.nodup_iff_pairwise_ne, List.pairwise_map] using different
  rw [AliasTable.owners, Table.get?_ofEntries names, List.mem_map]
  constructor
  · rintro ⟨e, member, same⟩
    obtain ⟨rfl, rfl⟩ := Prod.mk.inj same
    exact unshared.sorted.mem_entries_iff.mp member
  · exact fun found => ⟨(key.text, name), unshared.sorted.mem_entries_iff.mpr found, rfl⟩

theorem Owned.unshared {owners : Owners} {t : AliasTable} (owned : Owned owners t) :
    t.Unshared where
  sorted := owned.sorted
  apart := by
    intro k l name first second
    have owner := (owned.agree name k).mpr first
    rw [(owned.agree name l).mpr second] at owner
    exact (Option.some.inj owner).symm

end Names

section Values

/-- Names of values that are known stay known, and each new pair leads from its name to its
value. -/
theorem nameValues_spec {axis : AxisKey} {pairs : List (Tree × Tree)} {known named : Table Tree}
    (distinct : ∀ p ∈ pairs, p.2.Distinct) (done : nameValues axis pairs known = .ok named) :
    (∀ name v, known.get? name = some v → named.get? name = some v) ∧
      ∀ p ∈ pairs, ∃ name v, p.1 = .str name ∧ named.get? name = some v ∧ v.sameValue p.2 = true := by
  induction pairs generalizing known with
  | nil =>
    obtain rfl := Except.ok.inj done
    simp
  | cons p rest ih =>
    obtain ⟨said, value⟩ := p
    have later := fun p member => distinct p (List.mem_cons_of_mem _ member)
    cases said with
    | str name =>
      rw [nameValues] at done
      cases found : known.get? name with
      | none =>
        rw [found] at done
        obtain ⟨kept, pairs⟩ := ih later done
        have here : named.get? name = some value := kept name value (by simp [Table.get?_insert])
        refine ⟨fun probe v known => kept probe v ?_, List.forall_mem_cons.mpr ⟨?_, pairs⟩⟩
        · have away : probe ≠ name := by
            rintro rfl
            rw [found] at known
            cases known
          rw [Table.get?_insert, if_neg away, known]
        · exact ⟨name, value, rfl, here, Tree.sameValue_refl value (distinct _ List.mem_cons_self)⟩
      | some existing =>
        rw [found] at done
        dsimp only at done
        split at done
        · next same =>
          obtain ⟨kept, pairs⟩ := ih later done
          exact ⟨kept, List.forall_mem_cons.mpr ⟨⟨name, existing, rfl, kept _ _ found, same⟩, pairs⟩⟩
        · cases done
    | _ => cases done

/-- What the registration of an axis' value aliases changes in a table. -/
structure ValuesOf (key : AxisKey) (declaration : Mapping Tree) (t after : AliasTable) : Prop where
  keys : after.keys = t.keys
  remainder : after.remainder = t.remainder
  kept : ∀ name v, t.values.get? name = some v → after.values.get? name = some v
  aliased : ∀ probe, after.isAliased probe = true ↔
    t.isAliased probe = true ∨ (probe = key ∧ Mapping.has Keyword.valueAliases declaration = true)
  meant : Mapping.has Keyword.valueAliases declaration = true →
    ∀ said meant, Axis.Offers declaration said meant →
      ∃ name v, said = .str name ∧ after.values.get? name = some v ∧ v.sameValue meant = true

theorem registerValues_spec {key : AxisKey} {declaration seen : Mapping Tree}
    {t after : AliasTable} (distinct : (Tree.mapping declaration).Distinct)
    (done : t.registerValues key declaration = .ok (after, seen)) :
    ValuesOf key declaration t after := by
  have stripped : ∀ probe, Mapping.get? probe (declaration.remove Keyword.valueAliases)
      = if probe = Keyword.valueAliases then none else Mapping.get? probe declaration :=
    Mapping.get?_remove distinct.1
  unfold registerValues at done
  cases declared : Mapping.get? Keyword.valueAliases declaration with
  | none =>
    rw [declared] at done
    obtain ⟨rfl, -⟩ := Prod.mk.inj (Except.ok.inj done)
    have absent : Mapping.has Keyword.valueAliases declaration = false := by
      simp [Mapping.has, declared]
    exact ⟨rfl, rfl, fun _ _ => id, by simp [absent], by simp [absent]⟩
  | some aliases =>
    rw [declared] at done
    cases aliases with
    | list names =>
      dsimp only at done
      rw [stripped, if_neg (by decide)] at done
      split at done
      · next values listed =>
        split at done
        · cases done
        · split at done
          · cases done
          · next known named =>
            obtain ⟨rfl, -⟩ := Prod.mk.inj (Except.ok.inj done)
            have whole : (Tree.list values).Distinct := Tree.distinctEntries_iff.mp distinct.2 _
              (Mapping.mem_of_get? listed)
            have parts := Tree.distinct_of_mem_items whole
            obtain ⟨kept, pairs⟩ := nameValues_spec
              (fun p member => parts p.2 (List.of_mem_zip member).2) named
            refine ⟨rfl, rfl, kept, fun probe => ?_, fun _ said meant offers => ?_⟩
            · have texts : probe.text = key.text ↔ probe = key := by
                cases probe
                cases key
                simp
              simp only [isAliased, Table.has, Table.get?_insert, texts, Mapping.has, declared]
              by_cases here : probe = key <;> simp [here]
            · unfold Axis.Offers at offers
              rw [declared] at offers
              obtain ⟨names', values', same, listed', member⟩ := offers
              obtain rfl := Tree.list.inj same
              obtain rfl := Tree.list.inj (Option.some.inj (listed.symm.trans listed'))
              exact pairs _ member
      · cases done
    | _ => cases done

end Values

section Declared

/-- What the table says of an axis' value aliases. -/
structure AxisValues (t : AliasTable) (axis : Axis) : Prop where
  aliased : t.isAliased axis.key = true ↔
    Mapping.has Keyword.valueAliases axis.declaration = true
  meant : Mapping.has Keyword.valueAliases axis.declaration = true →
    ∀ said meant, Axis.Offers axis.declaration said meant →
      ∃ name v, said = .str name ∧ t.values.get? name = some v ∧ v.sameValue meant = true

/-- The identifier of an axis says nothing about its values. -/
theorem offers_withoutIdentifier {declaration : Mapping Tree}
    (unique : (Mapping.keys declaration).Nodup) (said meant : Tree) :
    Axis.Offers (Mapping.remove Keyword.identifier declaration) said meant ↔
      Axis.Offers declaration said meant := by
  have read : ∀ probe, Mapping.get? probe (declaration.remove Keyword.identifier)
      = if probe = Keyword.identifier then none else Mapping.get? probe declaration :=
    Mapping.get?_remove unique
  unfold Axis.Offers
  rw [read, read, if_neg (by decide), if_neg (by decide)]

theorem has_withoutIdentifier {declaration : Mapping Tree}
    (unique : (Mapping.keys declaration).Nodup) :
    Mapping.has Keyword.valueAliases (Mapping.remove Keyword.identifier declaration)
      = Mapping.has Keyword.valueAliases declaration := by
  unfold Mapping.has
  rw [Mapping.get?_remove unique, if_neg (by decide)]

/-- Registering an identifier touches the alias of its axis only. -/
theorem registerIdentifier_spec {axis : Axis} {owners claimed : Owners} {t after : AliasTable}
    (owned : Owned owners t) (fresh : t.aliasOf? axis.key = none)
    (done : t.registerIdentifier axis owners = .ok (claimed, after)) :
    Owned claimed after ∧ after.values = t.values ∧ after.aliased = t.aliased ∧
      after.remainder = t.remainder ∧
      ∀ probe, probe ≠ axis.key → after.aliasOf? probe = t.aliasOf? probe := by
  unfold registerIdentifier at done
  cases declared : Mapping.get? Keyword.identifier axis.declaration with
  | none =>
    rw [declared] at done
    obtain ⟨rfl, rfl⟩ := Prod.mk.inj (Except.ok.inj done)
    exact ⟨owned, rfl, rfl, rfl, fun _ _ => rfl⟩
  | some identifier =>
    rw [declared] at done
    cases identifier with
    | str name =>
      obtain ⟨_, claims, done⟩ := bind_eq_ok.mp done
      obtain ⟨rfl, rfl⟩ := Prod.mk.inj (Except.ok.inj done)
      refine ⟨owned.claim fresh claims, rfl, rfl, rfl, fun probe away => ?_⟩
      rw [aliasOf?_setKey, if_neg away]
    | _ => cases done

/-- What registering the declaration of one axis does to a table. -/
structure DeclarationOf (axis : Axis) (claimed : Owners) (t after : AliasTable) : Prop where
  owned : Owned claimed after
  remainder : after.remainder = t.remainder
  kept : ∀ name v, t.values.get? name = some v → after.values.get? name = some v
  names : ∀ probe, probe ≠ axis.key → after.aliasOf? probe = t.aliasOf? probe
  others : ∀ probe, probe ≠ axis.key → after.isAliased probe = t.isAliased probe
  values : AxisValues after axis

/-- One axis is registered by its identifier, then by the aliases of its values. -/
theorem declarationOf {axis : Axis} {owners claimed : Owners} {t named valued : AliasTable}
    {seen : Mapping Tree} (owned : Owned owners t)
    (distinct : (Tree.mapping axis.declaration).Distinct) (unnamed : t.aliasOf? axis.key = none)
    (unaliased : t.isAliased axis.key = false)
    (identified : t.registerIdentifier axis owners = .ok (claimed, named))
    (registers : named.registerValues axis.key (axis.declaration.remove Keyword.identifier)
      = .ok (valued, seen)) : DeclarationOf axis claimed t valued := by
  obtain ⟨claimedOwned, sameValues, sameAliased, sameRemainder, sameNames⟩ :=
    registerIdentifier_spec owned unnamed identified
  have valuesOf := registerValues_spec (Tree.distinct_remove distinct) registers
  have sameAlias : ∀ probe, valued.aliasOf? probe = named.aliasOf? probe := by
    intro probe
    unfold aliasOf?
    rw [valuesOf.keys]
  have before : named.isAliased axis.key = false := by
    rw [isAliased, sameAliased]
    exact unaliased
  refine
    { owned := ⟨valuesOf.keys ▸ claimedOwned.sorted,
        fun name key => (claimedOwned.agree name key).trans (by rw [sameAlias])⟩
      remainder := valuesOf.remainder.trans sameRemainder
      kept := fun name v known => valuesOf.kept name v (sameValues ▸ known)
      names := fun probe away => (sameAlias probe).trans (sameNames probe away)
      others := fun probe away => ?_
      values := ⟨?_, fun declared said meant offers => ?_⟩ }
  · rw [Bool.eq_iff_iff, valuesOf.aliased]
    simp [away, isAliased, sameAliased]
  · rw [valuesOf.aliased, has_withoutIdentifier distinct.1, before]
    simp
  · exact valuesOf.meant (by rw [has_withoutIdentifier distinct.1, declared]) said meant
      ((offers_withoutIdentifier distinct.1 said meant).mpr offers)

/-- Axes are registered in turn. -/
theorem registerDeclared_cons_eq_ok {axis : Axis} {rest : List Axis} {owners : Owners}
    {t : AliasTable} {r : Registration} : registerDeclared (axis :: rest) owners t = .ok r ↔
      ∃ claimed named, t.registerIdentifier axis owners = .ok (claimed, named) ∧
        ∃ valued seen, named.registerValues axis.key (axis.declaration.remove Keyword.identifier)
            = .ok (valued, seen) ∧
          ∃ later, registerDeclared rest claimed valued = .ok later ∧
            r = { later with axes := ⟨axis.key, seen⟩ :: later.axes } := by
  rw [registerDeclared]
  cases t.registerIdentifier axis owners with
  | error failure => simp
  | ok first =>
    obtain ⟨claimed, named⟩ := first
    constructor
    · intro done
      obtain ⟨⟨valued, seen⟩, registers, done⟩ := bind_eq_ok.mp done
      obtain ⟨later, continues, done⟩ := bind_eq_ok.mp done
      exact ⟨claimed, named, rfl, valued, seen, registers, later, continues,
        (Except.ok.inj done).symm⟩
    · rintro ⟨_, _, ⟨⟩, valued, seen, registers, later, continues, rfl⟩
      exact bind_eq_ok.mpr ⟨_, registers, bind_eq_ok.mpr ⟨later, continues, rfl⟩⟩

/-- What registering the declarations of axes does to a table. -/
structure DeclaredOf (axes : List Axis) (t : AliasTable) (r : Registration) : Prop where
  owned : Owned r.owners r.table
  keys : r.axes.map Axis.key = axes.map Axis.key
  remainder : r.table.remainder = t.remainder
  kept : ∀ name v, t.values.get? name = some v → r.table.values.get? name = some v
  names : ∀ probe, probe ∉ axes.map Axis.key → r.table.aliasOf? probe = t.aliasOf? probe
  others : ∀ probe, probe ∉ axes.map Axis.key → r.table.isAliased probe = t.isAliased probe
  values : ∀ axis ∈ axes, AxisValues r.table axis

theorem registerDeclared_spec {axes : List Axis} {owners : Owners} {t : AliasTable}
    {r : Registration} (owned : Owned owners t) (different : (axes.map Axis.key).Nodup)
    (distinct : ∀ axis ∈ axes, (Tree.mapping axis.declaration).Distinct)
    (unnamed : ∀ axis ∈ axes, t.aliasOf? axis.key = none)
    (unaliased : ∀ axis ∈ axes, t.isAliased axis.key = false)
    (done : registerDeclared axes owners t = .ok r) : DeclaredOf axes t r := by
  induction axes generalizing owners t r with
  | nil =>
    obtain rfl := Except.ok.inj done
    exact ⟨owned, rfl, rfl, fun _ _ => id, fun _ _ => rfl, fun _ _ => rfl, by simp⟩
  | cons axis rest ih =>
    rw [List.map_cons, List.nodup_cons] at different
    rw [List.forall_mem_cons] at distinct unnamed unaliased
    obtain ⟨claimed, named, identified, valued, seen, registers, later, continues, rfl⟩ :=
      registerDeclared_cons_eq_ok.mp done
    have first := declarationOf owned distinct.1 unnamed.1 unaliased.1 identified registers
    have away : ∀ other ∈ rest, other.key ≠ axis.key := by
      intro other member same
      exact different.1 (same ▸ List.mem_map_of_mem member)
    have spec := ih first.owned different.2 distinct.2
      (fun other member => (first.names _ (away other member)).trans (unnamed.2 other member))
      (fun other member => (first.others _ (away other member)).trans (unaliased.2 other member))
      continues
    refine
      { owned := spec.owned
        keys := by simp [spec.keys]
        remainder := spec.remainder.trans first.remainder
        kept := fun name v known => spec.kept name v (first.kept name v known)
        names := fun probe outside => ?_
        others := fun probe outside => ?_
        values := List.forall_mem_cons.mpr ⟨⟨?_, ?_⟩, spec.values⟩ }
    · rw [List.map_cons, List.mem_cons, not_or] at outside
      rw [spec.names probe outside.2, first.names probe outside.1]
    · rw [List.map_cons, List.mem_cons, not_or] at outside
      rw [spec.others probe outside.2, first.others probe outside.1]
    · rw [spec.others axis.key different.1]
      exact first.values.aliased
    · intro declared said meant offers
      obtain ⟨name, v, rfl, known, same⟩ := first.values.meant declared said meant offers
      exact ⟨name, v, rfl, spec.kept name v known, same⟩

end Declared

section Derived

/-- The table with further aliases. -/
abbrev setKeys (derived : List (AxisKey × String)) (t : AliasTable) : AliasTable :=
  derived.foldl (fun t e => t.setKey e.1 e.2) t

theorem setKeys_cons (key : AxisKey) (name : String) (derived : List (AxisKey × String))
    (t : AliasTable) : t.setKeys ((key, name) :: derived) = (t.setKey key name).setKeys derived := rfl

/-- The axes of a registration that have no aliases. -/
abbrev Registration.anonymous (r : Registration) : List AxisKey :=
  (r.axes.map Axis.key).filter fun key => (r.table.aliasOf? key).isNone

/-- First the declarations of the axes are registered, then the axes without aliases get derived
ones. -/
theorem register_eq_ok {axes : List Axis} {t after : AliasTable} {declared : Mapping Tree} :
    t.register axes = .ok (after, declared) ↔
      ∃ r, registerDeclared axes t.owners t = .ok r ∧
        ∃ derived, claimDerived (.ofLists (r.anonymous.map AxisKey.tokensFromRight)) r.anonymous
            r.owners = .ok derived ∧
          after = r.table.setKeys derived ∧ declared = after.declarations r.axes := by
  rw [register, bind_eq_ok]
  refine exists_congr fun r => and_congr_right fun _ => ?_
  dsimp only
  cases claimDerived (.ofLists (r.anonymous.map AxisKey.tokensFromRight)) r.anonymous r.owners with
  | error failure => simp
  | ok derived =>
    constructor
    · intro done
      obtain ⟨rfl, rfl⟩ := Prod.mk.inj (Except.ok.inj done)
      exact ⟨derived, rfl, rfl, rfl⟩
    · rintro ⟨_, ⟨⟩, rfl, rfl⟩
      rfl

/-- Every key gets the alias that is derived for it. -/
theorem claimDerived_spec {trie : TokenTrie} {keys : List AxisKey} {owners : Owners}
    {t : AliasTable} {derived : List (AxisKey × String)} (owned : Owned owners t)
    (different : keys.Nodup) (unnamed : ∀ key ∈ keys, t.aliasOf? key = none)
    (done : claimDerived trie keys owners = .ok derived) :
    (∃ claimed, Owned claimed (t.setKeys derived)) ∧
      (∀ key ∈ keys, ∃ name, (t.setKeys derived).aliasOf? key = some name) ∧
      (∀ key, key ∉ keys → (t.setKeys derived).aliasOf? key = t.aliasOf? key) ∧
      (t.setKeys derived).values = t.values ∧ (t.setKeys derived).aliased = t.aliased ∧
      (t.setKeys derived).remainder = t.remainder := by
  induction keys generalizing owners t derived with
  | nil =>
    obtain rfl := Except.ok.inj done
    exact ⟨⟨owners, owned⟩, by simp, fun _ _ => rfl, rfl, rfl, rfl⟩
  | cons key rest ih =>
    rw [List.nodup_cons] at different
    rw [List.forall_mem_cons] at unnamed
    obtain ⟨claimed, claims, done⟩ := bind_eq_ok.mp done
    obtain ⟨later, continues, done⟩ := bind_eq_ok.mp done
    obtain rfl := Except.ok.inj done
    have away : ∀ other ∈ rest, other ≠ key := fun other member same =>
      different.1 (same ▸ member)
    obtain ⟨agrees, found, kept, values, aliased, remainder⟩ :=
      ih (owned.claim unnamed.1 claims) different.2
        (fun other member => by
          rw [aliasOf?_setKey, if_neg (away other member), unnamed.2 other member])
        continues
    rw [setKeys_cons]
    refine ⟨agrees, List.forall_mem_cons.mpr ⟨?_, found⟩, fun probe outside => ?_, values, aliased,
      remainder⟩
    · refine ⟨derivedAlias trie key.tokensFromRight, ?_⟩
      rw [kept key different.1, aliasOf?_setKey, if_pos rfl]
    · rw [List.mem_cons, not_or] at outside
      rw [kept probe outside.2, aliasOf?_setKey, if_neg outside.1]

end Derived

/-- What a registration of axes leaves: aliases without clashes for all axes and no others, under
which their declarations are listed, and the way back from value aliases. -/
structure RegistrationOf (axes : List Axis) (remainder : Tree) (t : AliasTable)
    (declared : Mapping Tree) : Prop where
  remainder : t.remainder = remainder
  owners : ∀ name key, t.owners.get? name = some key ↔ t.aliasOf? key = some name
  named : ∀ axis ∈ axes, ∃ name, t.aliasOf? axis.key = some name
  only : ∀ key name, t.aliasOf? key = some name → key ∈ axes.map Axis.key
  values : ∀ axis ∈ axes, AxisValues t axis
  listed : ∀ name, name ∈ Mapping.keys declared ↔
    ∃ axis ∈ axes, t.aliasOf? axis.key = some name

theorem mem_keys_ofEntries {α : Type} {name : String} {entries : List (String × α)} :
    name ∈ Mapping.keys (Mapping.ofEntries entries) ↔ name ∈ Mapping.keys entries := by
  have folded : ∀ (entries : List (String × α)) (m : Mapping α),
      name ∈ Mapping.keys (entries.foldl (fun m e => Mapping.insert e.1 e.2 m) m) ↔
        name ∈ Mapping.keys m ∨ name ∈ Mapping.keys entries := by
    intro entries
    induction entries with
    | nil => simp
    | cons e rest ih =>
      intro m
      rw [List.foldl_cons, ih, Mapping.mem_keys_insert, Mapping.keys_cons, List.mem_cons]
      tauto
  have whole := folded entries []
  simpa [Mapping.ofEntries] using whole

theorem register_spec {axes : List Axis} {remainder : Tree} {t : AliasTable}
    {declared : Mapping Tree} (different : (axes.map Axis.key).Nodup)
    (distinct : ∀ axis ∈ axes, (Tree.mapping axis.declaration).Distinct)
    (done : register axes { remainder := remainder } = .ok (t, declared)) :
    RegistrationOf axes remainder t declared := by
  obtain ⟨r, registers, derived, claims, rfl, rfl⟩ := register_eq_ok.mp done
  have spec := registerDeclared_spec (owned_empty remainder) different distinct
    (fun _ _ => rfl) (fun _ _ => rfl) registers
  have anonymous : ∀ key, key ∈ r.anonymous ↔
      key ∈ axes.map Axis.key ∧ r.table.aliasOf? key = none := by
    intro key
    rw [List.mem_filter, spec.keys, Option.isNone_iff_eq_none]
  obtain ⟨⟨claimed, owned⟩, found, kept, values, aliased, sameRemainder⟩ :=
    claimDerived_spec spec.owned ((spec.keys ▸ different).filter _)
      (fun key member => ((anonymous key).mp member).2) claims
  have named : ∀ key ∈ axes.map Axis.key, ∃ name, (r.table.setKeys derived).aliasOf? key = some name := by
    intro key member
    cases own : r.table.aliasOf? key with
    | none => exact found key ((anonymous key).mpr ⟨member, own⟩)
    | some name =>
      have outside : key ∉ r.anonymous := by
        rw [anonymous, own]
        simp
      exact ⟨name, by rw [kept key outside, own]⟩
  refine
    { remainder := by rw [sameRemainder, spec.remainder]
      owners := owned.unshared.read
      named := fun axis member => named axis.key (List.mem_map_of_mem member)
      only := ?_
      values := fun axis member => ?_
      listed := ?_ }
  · intro key name owns
    by_contra outside
    rw [kept key (fun member => outside ((anonymous key).mp member).1), spec.names key outside]
      at owns
    cases owns
  · have valuesOf := spec.values axis member
    refine ⟨?_, ?_⟩
    · rw [← valuesOf.aliased]
      simp [isAliased, aliased]
    · rw [values]
      exact valuesOf.meant
  · intro name
    rw [declarations, mem_keys_ofEntries, Mapping.keys, List.map_map, List.mem_map]
    constructor
    · rintro ⟨axis, inside, shown⟩
      have key : axis.key ∈ axes.map Axis.key := spec.keys ▸ List.mem_map_of_mem inside
      obtain ⟨own, owns⟩ := named axis.key key
      obtain ⟨original, originally, sameKey⟩ := List.mem_map.mp key
      have same : own = name := by simpa [owns] using shown
      exact ⟨original, originally, by rw [sameKey, owns, same]⟩
    · rintro ⟨axis, inside, owns⟩
      have key : axis.key ∈ r.axes.map Axis.key := spec.keys ▸ List.mem_map_of_mem inside
      obtain ⟨registered, among, sameKey⟩ := List.mem_map.mp key
      exact ⟨registered, among, by simp [sameKey, owns]⟩

/-- A value that an axis offers is understood as what the axis offers it for. -/
theorem RegistrationOf.resolveChoice {axes : List Axis} {remainder : Tree} {t : AliasTable}
    {declared : Mapping Tree} (registered : RegistrationOf axes remainder t declared) {axis : Axis}
    (member : axis ∈ axes) {name : String} (owns : t.aliasOf? axis.key = some name)
    {said meant : Tree} (distinct : said.Distinct) (offers : Axis.Offers axis.declaration said meant) :
    ∃ value, AliasTable.resolveChoice t.owners name said t = .ok (axis.key, value) ∧
      ∀ other, Axis.Offers axis.declaration said other → value.sameValue other = true := by
  have values := registered.values axis member
  unfold AliasTable.resolveChoice
  rw [(registered.owners name axis.key).mpr owns]
  dsimp only
  by_cases declares : Mapping.has Keyword.valueAliases axis.declaration = true
  · obtain ⟨text, value, rfl, known, -⟩ := values.meant declares said meant offers
    refine ⟨value, ?_, fun other offered => ?_⟩
    · rw [if_pos (values.aliased.mpr declares)]
      simp [Tree.text?, known]
    · obtain ⟨text', value', same, known', agrees⟩ := values.meant declares _ other offered
      obtain rfl := Tree.str.inj same
      obtain rfl := Option.some.inj (known.symm.trans known')
      exact agrees
  · refine ⟨said, ?_, fun other offered => ?_⟩
    · rw [if_neg fun marked => declares (values.aliased.mp marked)]
    · unfold Mapping.has at declares
      rw [Option.isSome_iff_ne_none, ne_eq, not_not] at declares
      rw [Axis.Offers, declares] at offered
      exact offered ▸ Tree.sameValue_refl said distinct

end AliasTable

end ConfigSweep
