import ConfigSweep.Proofs.Declarations
import ConfigSweep.Proofs.Ownership

/-!
# Axes that are declared again

Marks of axes and meanings of value aliases are never taken back: an axis counts as aliased when any
declaration of it, in any registration so far, gave aliases to its values, and a value alias is known
when any axis has ever declared it.
-/

namespace ConfigSweep.AliasTable

/-- Registrations in turn, all of which must end. -/
def registerAll (calls : List (List Axis)) (t : AliasTable) :
    Except (Stopped AliasTable) AliasTable :=
  calls.foldlM (fun t axes => Prod.fst <$> t.register axes) t

/-- What registering axes adds to the marks and to the known value aliases of a table. -/
structure MarkedOf (axes : List Axis) (t after : AliasTable) : Prop where
  marked : ∀ probe, after.isAliased probe = true ↔ t.isAliased probe = true ∨
    ∃ axis ∈ axes, axis.key = probe ∧ Mapping.has Keyword.valueAliases axis.declaration = true
  known : ∀ name, (after.values.get? name).isSome = true ↔ (t.values.get? name).isSome = true ∨
    ∃ axis ∈ axes, Axis.Declares axis.declaration (.str name)
  texts : ∀ axis ∈ axes, ∀ said, Axis.Declares axis.declaration said → ∃ name, said = .str name

section Marks

variable {axes others : List Axis} {t u after : AliasTable}

theorem MarkedOf.nil : MarkedOf [] t t where
  marked := by simp
  known := by simp
  texts := by simp

theorem MarkedOf.append (first : MarkedOf axes t u) (second : MarkedOf others u after) :
    MarkedOf (axes ++ others) t after where
  marked := by
    intro probe
    rw [second.marked, first.marked, or_assoc]
    simp only [List.mem_append, or_and_right, exists_or]
  known := by
    intro name
    rw [second.known, first.known, or_assoc]
    simp only [List.mem_append, or_and_right, exists_or]
  texts := fun axis member =>
    (List.mem_append.mp member).elim (first.texts axis) (second.texts axis)

/-- Aliases of axes matter neither to marks nor to value aliases. -/
theorem MarkedOf.keptByNames : KeptByNames (MarkedOf axes t) where
  name _ _ marks := ⟨marks.marked, marks.known, marks.texts⟩

theorem registerValues_marks {axis : Axis} {seen : Mapping Tree}
    (distinct : (Tree.mapping axis.declaration).Distinct)
    (done : t.registerValues axis.key (axis.declaration.remove Keyword.identifier)
      = .ok (after, seen)) : MarkedOf [axis] t after := by
  have valuesOf := registerValues_spec (Tree.distinct_remove distinct) done
  obtain ⟨-, paired, known⟩ := registerValues_shown distinct.1 done
  have meant : ∀ said, Axis.Declares axis.declaration said →
      ∃ name v, said = .str name ∧ after.values.get? name = some v := by
    intro said declares
    have has : Mapping.has Keyword.valueAliases axis.declaration = true := by
      obtain ⟨names, found, -⟩ := declares
      exact Option.isSome_of_eq_some found
    obtain ⟨meant, offers⟩ := paired.offers declares
    obtain ⟨name, v, same, found, -⟩ := valuesOf.meant ((has_withoutIdentifier distinct.1).trans has)
      said meant ((offers_withoutIdentifier distinct.1 said meant).mpr offers)
    exact ⟨name, v, same, found⟩
  constructor
  · intro probe
    rw [valuesOf.aliased, has_withoutIdentifier distinct.1, eq_comm (a := probe)]
    simp only [List.mem_singleton, exists_eq_left]
  · intro name
    simp only [List.mem_singleton, exists_eq_left]
    constructor
    · intro found
      obtain ⟨v, found⟩ := Option.isSome_iff_exists.mp found
      exact (known name v found).imp_left Option.isSome_of_eq_some
    · rintro (before | declares)
      · obtain ⟨v, found⟩ := Option.isSome_iff_exists.mp before
        exact Option.isSome_of_eq_some (valuesOf.kept name v found)
      · obtain ⟨_, v, same, found⟩ := meant _ declares
        exact Tree.str.inj same ▸ Option.isSome_of_eq_some found
  · intro other member said declares
    obtain rfl := List.mem_singleton.mp member
    obtain ⟨name, v, same, -⟩ := meant said declares
    exact ⟨name, same⟩

theorem registerDeclared_marks {owners : Owners} {r : Registration}
    (distinct : ∀ axis ∈ axes, (Tree.mapping axis.declaration).Distinct)
    (done : registerDeclared axes owners t = .ok r) : MarkedOf axes t r.table := by
  induction axes generalizing owners t r with
  | nil =>
    obtain rfl := Except.ok.inj done
    exact .nil
  | cons axis rest ih =>
    rw [List.forall_mem_cons] at distinct
    obtain ⟨claimed, named, identified, valued, seen, registers, later, continues, rfl⟩ :=
      registerDeclared_cons_eq_ok.mp done
    have identity : MarkedOf [] t named := MarkedOf.keptByNames.registerIdentifier .nil identified
    have first := identity.append (registerValues_marks distinct.1 registers)
    have others := ih distinct.2 continues
    exact first.append others

theorem register_marks {declared : Mapping Tree}
    (distinct : ∀ axis ∈ axes, (Tree.mapping axis.declaration).Distinct)
    (done : t.register axes = .ok (after, declared)) : MarkedOf axes t after := by
  obtain ⟨r, registers, derived, -, rfl, -⟩ := register_eq_ok.mp done
  exact MarkedOf.keptByNames.setKeys derived (registerDeclared_marks distinct registers)

theorem registerAll_marks {calls : List (List Axis)}
    (distinct : ∀ axis ∈ calls.flatten, (Tree.mapping axis.declaration).Distinct)
    (run : registerAll calls t = .ok after) : MarkedOf calls.flatten t after := by
  induction calls generalizing t with
  | nil =>
    obtain rfl := Except.ok.inj run
    exact .nil
  | cons axes rest ih =>
    rw [registerAll, List.foldlM_cons] at run
    obtain ⟨next, first, run⟩ := bind_eq_ok.mp run
    obtain ⟨⟨table, declared⟩, registers, rfl⟩ := map_eq_ok.mp first
    rw [List.flatten_cons, List.forall_mem_append] at distinct
    rw [List.flatten_cons]
    exact (register_marks distinct.1 registers).append (ih distinct.2 run)

theorem registerAll_unshared {calls : List (List Axis)} (unshared : t.Unshared)
    (run : registerAll calls t = .ok after) : after.Unshared := by
  induction calls generalizing t with
  | nil =>
    obtain rfl := Except.ok.inj run
    exact unshared
  | cons axes rest ih =>
    rw [registerAll, List.foldlM_cons] at run
    obtain ⟨next, first, run⟩ := bind_eq_ok.mp run
    obtain ⟨registered, registers, rfl⟩ := map_eq_ok.mp first
    have left := unshared.register axes
    rw [registers] at left
    exact ih left run

end Marks

section Named

variable {axes : List Axis} {t after : AliasTable}

theorem setKeys_isSome (derived : List (AxisKey × String)) (key : AxisKey) (t : AliasTable) :
    ((t.setKeys derived).aliasOf? key).isSome = true ↔
      (t.aliasOf? key).isSome = true ∨ key ∈ derived.map Prod.fst := by
  induction derived generalizing t with
  | nil => simp
  | cons e rest ih =>
    rw [setKeys_cons, ih, aliasOf?_setKey, List.map_cons, List.mem_cons]
    by_cases here : key = e.1
    · simp [here]
    · simp [here]

theorem claimDerived_keys {trie : TokenTrie} {keys : List AxisKey} {owners : Owners}
    {derived : List (AxisKey × String)} (done : claimDerived trie keys owners = .ok derived) :
    derived.map Prod.fst = keys := by
  induction keys generalizing owners derived with
  | nil =>
    obtain rfl := Except.ok.inj done
    rfl
  | cons key rest ih =>
    obtain ⟨claimed, -, done⟩ := bind_eq_ok.mp done
    obtain ⟨later, continues, done⟩ := bind_eq_ok.mp done
    obtain rfl := Except.ok.inj done
    rw [List.map_cons, ih continues]

/-- A registration that ends leaves no axis without an alias. -/
theorem register_named {declared : Mapping Tree}
    (distinct : ∀ axis ∈ axes, (Tree.mapping axis.declaration).Distinct)
    (done : t.register axes = .ok (after, declared)) :
    ∀ axis ∈ axes, ∃ name, after.aliasOf? axis.key = some name := by
  obtain ⟨r, registers, derived, claims, rfl, -⟩ := register_eq_ok.mp done
  intro axis member
  refine Option.isSome_iff_exists.mp ((setKeys_isSome derived axis.key _).mpr ?_)
  rw [claimDerived_keys claims, List.mem_filter, (registerDeclared_shown distinct registers).seen,
    List.map_map]
  cases own : r.table.aliasOf? axis.key with
  | some name => exact .inl rfl
  | none => exact .inr ⟨List.mem_map_of_mem member, by simp⟩

end Named

/-- A single choice is understood when its alias is owned and, for an axis with value aliases, the
value is one that is known. -/
theorem Unshared.resolve_single {t : AliasTable} (unshared : t.Unshared) {key : AxisKey}
    {name : String} (owns : t.aliasOf? key = some name) (said : Tree) :
    (∃ v, t.resolve [(name, said)] = .ok [(key, v)]) ↔
      (t.isAliased key = true → ∃ text, said = .str text ∧ (t.values.get? text).isSome = true) := by
  have choice : ∀ v, t.resolve [(name, said)] = .ok [(key, v)] ↔
      if t.isAliased key then ∃ text, said = .str text ∧ t.values.get? text = some v
      else said = v := by
    intro v
    rw [AliasTable.resolve, mapM_eq_ok, List.forall₂_cons, and_iff_left .nil, resolveChoice_eq_ok]
    exact and_iff_right ((unshared.read name key).mpr owns)
  simp only [choice]
  cases t.isAliased key with
  | false => simp
  | true => simp [Option.isSome_iff_exists, ← exists_and_left, exists_comm (α := Tree)]

/-- An axis that is registered is aliased when any declaration of it so far gave aliases to its
values. Then only aliases are understood that some axis has declared so far, be the values that were
just listed for the axis among them or not. -/
theorem marked_by_any_declaration (calls : List (List Axis)) (axes : List Axis)
    (before after : AliasTable) (declared : Mapping Tree)
    (distinct : ∀ axis ∈ calls.flatten ++ axes, (Tree.mapping axis.declaration).Distinct)
    (run : registerAll calls .empty = .ok before)
    (last : before.register axes = .ok (after, declared)) :
    ∀ axis ∈ axes,
      (after.isAliased axis.key = true ↔ ∃ other ∈ calls.flatten ++ axes,
        other.key = axis.key ∧ Mapping.has Keyword.valueAliases other.declaration = true) ∧
      ∃ name, after.aliasOf? axis.key = some name ∧ ∀ said,
        (∃ v, after.resolve [(name, said)] = .ok [(axis.key, v)]) ↔
          (after.isAliased axis.key = true →
            ∃ other ∈ calls.flatten ++ axes, Axis.Declares other.declaration said) := by
  rw [List.forall_mem_append] at distinct
  have marks := (registerAll_marks distinct.1 run).append (register_marks distinct.2 last)
  have unshared : after.Unshared := by
    have left := (registerAll_unshared unshared_empty run).register axes
    rwa [last] at left
  intro axis member
  obtain ⟨name, owns⟩ := register_named distinct.2 last axis member
  refine ⟨?_, name, owns, fun said => ?_⟩
  · rw [marks.marked]
    exact or_iff_right Bool.false_ne_true
  · rw [unshared.resolve_single owns]
    refine imp_congr_right fun _ => ?_
    constructor
    · rintro ⟨text, rfl, found⟩
      exact ((marks.known text).mp found).resolve_left (by simp [AliasTable.empty])
    · rintro ⟨other, among, declares⟩
      obtain ⟨text, rfl⟩ := marks.texts other among said declares
      exact ⟨text, rfl, (marks.known text).mpr (.inr ⟨other, among, declares⟩)⟩

section Again

def rateWithAliases : Axis :=
  ⟨⟨"lr"⟩, [("sweep_alias", .list [.str "x"]), ("values", .list [.int 1])]⟩

/-- The same axis without value aliases. -/
def ratePlain : Axis :=
  ⟨⟨"lr"⟩, [("values", .list [.int 1])]⟩

/-- The table after both declarations, as after the first. -/
def rateTable : AliasTable where
  keys := ⟨[("lr", "lr")]⟩
  values := ⟨[("x", .int 1)]⟩
  aliased := ⟨[("lr", ())]⟩

theorem rate_registerAll : registerAll [[rateWithAliases]] .empty = .ok rateTable := by
  with_unfolding_all rfl

theorem rate_register :
    rateTable.register [ratePlain] = .ok (rateTable, [("lr", .mapping [("values", .list [.int 1])])]) := by
  with_unfolding_all rfl

/-- The value that the second declaration lists is no choice for its axis. -/
theorem rate_marked : rateTable.isAliased ⟨"lr"⟩ = true ∧
    ¬ ∃ v, rateTable.resolve [("lr", .int 1)] = .ok [(⟨"lr"⟩, v)] := by
  have both := marked_by_any_declaration [[rateWithAliases]] [ratePlain] rateTable rateTable _
    (by decide) rate_registerAll rate_register ratePlain List.mem_cons_self
  obtain ⟨marked, name, owns, understood⟩ := both
  have aliased : rateTable.isAliased ⟨"lr"⟩ = true :=
    marked.mpr ⟨rateWithAliases, List.mem_cons_self, rfl, by decide⟩
  obtain rfl : "lr" = name := Option.some.inj owns
  refine ⟨aliased, fun accepted => ?_⟩
  obtain ⟨other, member, names, declared, said⟩ := (understood (.int 1)).mp accepted aliased
  have either : other = rateWithAliases ∨ other = ratePlain := by simpa using member
  rcases either with rfl | rfl
  · obtain rfl := Tree.list.inj (Option.some.inj declared)
    cases List.mem_singleton.mp said
  · cases declared

end Again

end ConfigSweep.AliasTable
