import ConfigSweep.Proofs.Registration

/-!
# Declarations as seen outside

A registration lists the axes in their order, each declaration under the alias of its axis and
without what it says about aliases. Where the values of an axis have aliases, these are listed in
the place of the values. No alias of values is known that no axis declares.
-/

namespace ConfigSweep

namespace Axis

/-- The aliases that a declaration gives to its values hold the one that is said. -/
def Declares (declaration : Mapping Tree) (said : Tree) : Prop :=
  ∃ names, Mapping.get? Keyword.valueAliases declaration = some (.list names) ∧ said ∈ names

/-- The declaration without what it says about aliases; aliases of values replace the values. -/
def shown (declaration : Mapping Tree) : Mapping Tree :=
  let rest := (declaration.remove Keyword.identifier).remove Keyword.valueAliases
  match Mapping.get? Keyword.valueAliases declaration with
  | some aliases => rest.insert "values" aliases
  | none => rest

/-- The values that an axis can take, if it lists them. -/
def candidates (declaration : Mapping Tree) : List Tree :=
  match Mapping.get? "values" declaration with
  | some (.list values) => values
  | _ => []

/-- Where values have aliases, both are listed and there are as many of the ones as of the
others. -/
def Paired (declaration : Mapping Tree) : Prop :=
  ∀ aliases, Mapping.get? Keyword.valueAliases declaration = some aliases →
    ∃ names values, aliases = .list names ∧
      Mapping.get? "values" declaration = some (.list values) ∧ names.length = values.length

variable {declaration : Mapping Tree}

theorem Paired.offers (paired : Paired declaration) {said : Tree}
    (declares : Declares declaration said) : ∃ meant, Offers declaration said meant := by
  obtain ⟨names, declared, member⟩ := declares
  obtain ⟨_, values, ⟨⟩, listed, long⟩ := paired _ declared
  obtain ⟨i, within, rfl⟩ := List.mem_iff_getElem.mp member
  have inZip : i < (names.zip values).length := by simp; omega
  refine ⟨values[i], ?_⟩
  unfold Offers
  rw [declared]
  refine ⟨names, values, rfl, listed, ?_⟩
  rw [← List.getElem_zip (h := inZip)]
  exact List.getElem_mem inZip

theorem get?_stripped (unique : (Mapping.keys declaration).Nodup) (probe : String) :
    Mapping.get? probe ((declaration.remove Keyword.identifier).remove Keyword.valueAliases)
      = if probe = Keyword.valueAliases then none
        else if probe = Keyword.identifier then none else Mapping.get? probe declaration := by
  rw [Mapping.get?_remove (Mapping.nodup_keys_remove unique), Mapping.get?_remove unique]

/-- What is listed at a place of the shown declaration is offered for the candidate at that
place. -/
theorem offers_of_shown (unique : (Mapping.keys declaration).Nodup) (paired : Paired declaration)
    (place : Nat) : Option.Rel (Offers declaration) (candidates (shown declaration))[place]?
      (candidates declaration)[place]? := by
  unfold candidates shown Offers
  cases declared : Mapping.get? Keyword.valueAliases declaration with
  | none =>
    dsimp only
    rw [get?_stripped unique, if_neg (by decide), if_neg (by decide)]
    generalize (match Mapping.get? "values" declaration with
      | some (.list values) => values
      | _ => [])[place]? = here
    cases here with
    | none => exact .none
    | some value => exact .some rfl
  | some aliases =>
    obtain ⟨names, values, rfl, listed, long⟩ := paired _ declared
    dsimp only
    rw [Mapping.get?_insert, if_pos rfl, listed]
    dsimp only
    by_cases within : place < names.length
    · have inZip : place < (names.zip values).length := by simp; omega
      rw [List.getElem?_eq_getElem within, List.getElem?_eq_getElem (long ▸ within)]
      refine .some ⟨names, values, rfl, rfl, ?_⟩
      rw [← List.getElem_zip (h := inZip)]
      exact List.getElem_mem inZip
    · rw [List.getElem?_eq_none (by omega), List.getElem?_eq_none (by omega)]
      exact .none

end Axis

namespace AliasTable

section Values

/-- A name is known after values were named when it was before or is one of the names. -/
theorem nameValues_known {axis : AxisKey} {pairs : List (Tree × Tree)} {known named : Table Tree}
    (done : nameValues axis pairs known = .ok named) {name : String} {v : Tree}
    (found : named.get? name = some v) :
    known.get? name = some v ∨ ∃ p ∈ pairs, p.1 = .str name := by
  induction pairs generalizing known with
  | nil =>
    obtain rfl := Except.ok.inj done
    exact .inl found
  | cons p rest ih =>
    obtain ⟨said, value⟩ := p
    have later : ∀ {known}, nameValues axis rest known = .ok named →
        known.get? name = some v ∨ ∃ p ∈ (said, value) :: rest, p.1 = .str name := fun done =>
      (ih done).imp_right fun ⟨p, member, same⟩ => ⟨p, List.mem_cons_of_mem _ member, same⟩
    cases said with
    | str own =>
      rw [nameValues] at done
      split at done
      · rcases later done with before | among
        · rw [Table.get?_insert] at before
          split at before
          · next same => exact .inr ⟨_, List.mem_cons_self, congrArg Tree.str same.symm⟩
          · exact .inl before
        · exact .inr among
      · split at done
        · exact later done
        · cases done
    | _ => cases done

/-- What registering the values of an axis shows of its declaration. -/
theorem registerValues_shown {key : AxisKey} {declaration seen : Mapping Tree}
    {t after : AliasTable} (unique : (Mapping.keys declaration).Nodup)
    (done : t.registerValues key (declaration.remove Keyword.identifier) = .ok (after, seen)) :
    seen = Axis.shown declaration ∧ Axis.Paired declaration ∧
      ∀ name v, after.values.get? name = some v →
        t.values.get? name = some v ∨ Axis.Declares declaration (.str name) := by
  have aliases : Mapping.get? Keyword.valueAliases (declaration.remove Keyword.identifier)
      = Mapping.get? Keyword.valueAliases declaration := by
    rw [Mapping.get?_remove unique, if_neg (by decide)]
  unfold registerValues at done
  rw [aliases] at done
  unfold Axis.shown Axis.Paired Axis.Declares
  cases declared : Mapping.get? Keyword.valueAliases declaration with
  | none =>
    rw [declared] at done
    obtain ⟨rfl, rfl⟩ := Prod.mk.inj (Except.ok.inj done)
    exact ⟨rfl, by simp, fun _ _ => .inl⟩
  | some whole =>
    rw [declared] at done
    cases whole with
    | list names =>
      dsimp only at done
      rw [Axis.get?_stripped unique, if_neg (by decide), if_neg (by decide)] at done
      split at done
      · next values listed =>
        split at done
        · cases done
        next long =>
        split at done
        · cases done
        next known named =>
        obtain ⟨rfl, rfl⟩ := Prod.mk.inj (Except.ok.inj done)
        refine ⟨rfl, ?_, fun name v found => ?_⟩
        · rintro _ ⟨⟩
          exact ⟨names, values, rfl, listed, not_not.mp long⟩
        · refine (nameValues_known named found).imp_right ?_
          rintro ⟨⟨said, value⟩, member, rfl⟩
          exact ⟨names, rfl, (List.of_mem_zip member).1⟩
      · cases done
    | _ => cases done

end Values

theorem registerIdentifier_values {axis : Axis} {owners claimed : Owners} {t after : AliasTable}
    (done : t.registerIdentifier axis owners = .ok (claimed, after)) : after.values = t.values := by
  unfold registerIdentifier at done
  split at done
  · obtain ⟨-, rfl⟩ := Prod.mk.inj (Except.ok.inj done)
    rfl
  · obtain ⟨owners, -, done⟩ := bind_eq_ok.mp done
    obtain ⟨-, rfl⟩ := Prod.mk.inj (Except.ok.inj done)
    rfl
  · cases done

/-- What registering the declarations of axes shows of them. -/
structure ShownOf (axes : List Axis) (t : AliasTable) (r : Registration) : Prop where
  seen : r.axes = axes.map fun axis => ⟨axis.key, Axis.shown axis.declaration⟩
  paired : ∀ axis ∈ axes, Axis.Paired axis.declaration
  known : ∀ name v, r.table.values.get? name = some v →
    t.values.get? name = some v ∨ ∃ axis ∈ axes, Axis.Declares axis.declaration (.str name)

theorem registerDeclared_shown {axes : List Axis} {owners : Owners} {t : AliasTable}
    {r : Registration} (distinct : ∀ axis ∈ axes, (Tree.mapping axis.declaration).Distinct)
    (done : registerDeclared axes owners t = .ok r) : ShownOf axes t r := by
  induction axes generalizing owners t r with
  | nil =>
    obtain rfl := Except.ok.inj done
    exact ⟨rfl, by simp, fun _ _ => .inl⟩
  | cons axis rest ih =>
    rw [List.forall_mem_cons] at distinct
    obtain ⟨claimed, named, identified, valued, seen, registers, later, continues, rfl⟩ :=
      registerDeclared_cons_eq_ok.mp done
    obtain ⟨rfl, paired, known⟩ := registerValues_shown distinct.1.1 registers
    have spec := ih distinct.2 continues
    refine ⟨?_, List.forall_mem_cons.mpr ⟨paired, spec.paired⟩, fun name v found => ?_⟩
    · rw [List.map_cons, ← spec.seen]
    · rcases spec.known name v found with before | ⟨other, member, declares⟩
      · rcases known name v before with before | declares
        · exact .inl (registerIdentifier_values identified ▸ before)
        · exact .inr ⟨axis, List.mem_cons_self, declares⟩
      · exact .inr ⟨other, List.mem_cons_of_mem _ member, declares⟩

/-- What a registration lists of axes: their shown declarations in the same order, each under the
alias of its axis, which no other axis has, and only names of values that the axes declare. -/
structure ListingOf (axes : List Axis) (t : AliasTable) (declared : Mapping Tree) : Prop where
  listed : List.Forall₂ (fun axis e => t.aliasOf? axis.key = some e.1 ∧
    e.2 = .mapping (Axis.shown axis.declaration)) axes declared
  unique : (Mapping.keys declared).Nodup
  paired : ∀ axis ∈ axes, Axis.Paired axis.declaration
  known : ∀ name v, t.values.get? name = some v →
    ∃ axis ∈ axes, Axis.Declares axis.declaration (.str name)

theorem setKeys_values (derived : List (AxisKey × String)) (t : AliasTable) :
    (t.setKeys derived).values = t.values := by
  induction derived generalizing t with
  | nil => rfl
  | cons e rest ih => exact ih (t.setKey e.1 e.2)

theorem register_listing {axes : List Axis} {t : AliasTable} {declared : Mapping Tree}
    (different : (axes.map Axis.key).Nodup)
    (distinct : ∀ axis ∈ axes, (Tree.mapping axis.declaration).Distinct)
    (done : AliasTable.empty.register axes = .ok (t, declared)) : ListingOf axes t declared := by
  have spec : RegistrationOf axes .null t declared := register_spec different distinct done
  obtain ⟨r, registers, derived, claims, rfl, rfl⟩ := register_eq_ok.mp done
  have shownOf := registerDeclared_shown distinct registers
  have related : List.Forall₂ (fun axis (e : String × Tree) =>
      (r.table.setKeys derived).aliasOf? axis.key = some e.1 ∧
        e.2 = .mapping (Axis.shown axis.declaration)) axes
      (r.axes.map fun axis => (((r.table.setKeys derived).aliasOf? axis.key).getD axis.key.dotted,
        Tree.mapping axis.declaration)) := by
    rw [shownOf.seen, List.map_map, List.forall₂_map_right_iff, List.forall₂_same]
    intro axis member
    obtain ⟨name, owns⟩ := spec.named axis member
    simp [owns]
  have unique : (Mapping.keys (r.axes.map fun axis =>
      (((r.table.setKeys derived).aliasOf? axis.key).getD axis.key.dotted,
        Tree.mapping axis.declaration))).Nodup := by
    rw [shownOf.seen, List.map_map, Mapping.keys, List.map_map]
    refine (List.nodup_map_iff_inj_on different.of_map).mpr fun a first b second same => ?_
    obtain ⟨nameA, ownsA⟩ := spec.named a first
    obtain ⟨nameB, ownsB⟩ := spec.named b second
    have names : nameA = nameB := by simpa [ownsA, ownsB] using same
    have keys : a.key = b.key := by
      have ownerA := (spec.owners nameA a.key).mpr ownsA
      have ownerB := (spec.owners nameB b.key).mpr ownsB
      rw [names, ownerB] at ownerA
      exact (Option.some.inj ownerA).symm
    exact List.inj_on_of_nodup_map different first second keys
  have whole := Mapping.ofEntries_eq unique
  refine ⟨?_, ?_, shownOf.paired, fun name v found => ?_⟩
  · rw [declarations, whole]
    exact related
  · rw [declarations, whole]
    exact unique
  · rw [setKeys_values] at found
    rcases shownOf.known name v found with before | declares
    · rw [AliasTable.empty, Table.get?_empty] at before
      cases before
    · exact declares

end AliasTable

end ConfigSweep
