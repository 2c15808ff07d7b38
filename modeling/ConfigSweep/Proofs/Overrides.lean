import ConfigSweep.Proofs.Rebuilt
import ConfigSweep.Proofs.Registration
import ConfigSweep.StandardForm

/-!
# What an assignment stands for

A sweep in standard form is used with assignments of values to the aliases of its axes. The table
made with the standard form turns every such assignment into the authored parameters with the
meant values in the places of their axes.
-/

namespace ConfigSweep

namespace AliasTable

open ConfigSweep.Tree

/-- What the table of a sweep in standard form knows of parameters whose keys end clear. -/
structure StandardOf (parameters : Tree) (t : AliasTable) (declared : Mapping Tree) : Prop where
  distinct : parameters.Distinct
  plain : parameters.isAxis = false
  container : parameters.isLeaf = false
  keys : parameters.OutsideKeys AxisKey.Cuttable
  registered : RegistrationOf (parameters.axisLocations.map axisOf) parameters.withoutAxes t declared

theorem StandardOf.key_inj {parameters : Tree} {t : AliasTable} {declared : Mapping Tree}
    (standard : StandardOf parameters t declared) {l m : Path × Mapping Tree}
    (first : l ∈ parameters.axisLocations) (second : m ∈ parameters.axisLocations)
    (same : AxisKey.ofSteps l.1 = AxisKey.ofSteps m.1) : l = m :=
  axisKey_inj standard.distinct standard.plain standard.keys first second same

/-- How a standard form comes about. -/
theorem ofSweep_eq_ok {sweep standard : Tree} {t : AliasTable}
    (done : ofSweep sweep = .ok (t, standard)) :
    ∃ entries parameters split declared, sweep = .mapping entries ∧
      Mapping.get? parametersKey entries = some (.mapping parameters) ∧
      (Tree.mapping parameters).splitAxes = .ok split ∧
      register split.axes { remainder := split.remainder } = .ok (t, declared) ∧
      standard = .mapping (Mapping.insert parametersKey (.mapping declared) entries) := by
  unfold ofSweep at done
  split at done
  · next entries =>
    split at done
    · next parameters given =>
      split at done
      · cases done
      · next splits split =>
        obtain ⟨⟨table, declared⟩, registers, done⟩ := bind_eq_ok.mp done
        obtain ⟨rfl, rfl⟩ := Prod.mk.inj (Except.ok.inj done)
        exact ⟨entries, parameters, _, declared, rfl, given, split, registers, rfl⟩
    · cases done
  · cases done

theorem standardOf_ofSweep {sweep parameters standard : Tree} {t : AliasTable}
    (distinct : sweep.Distinct) (given : sweep.field? parametersKey = some parameters)
    (clear : parameters.OutsideKeys AxisKey.EndsClear)
    (done : ofSweep sweep = .ok (t, standard)) :
    ∃ declared, standard.field? parametersKey = some (.mapping declared) ∧
      StandardOf parameters t declared := by
  obtain ⟨entries, authored, split, declared, rfl, found, splits, registers, rfl⟩ := ofSweep_eq_ok done
  obtain rfl : Tree.mapping authored = parameters := Option.some.inj (found.symm.trans given)
  have below := distinctEntries_iff.mp distinct.2 _ (Mapping.mem_of_get? found)
  obtain ⟨plain, splitOf⟩ := splitAxes_spec splits
  have cuttable : (Tree.mapping authored).OutsideKeys AxisKey.Cuttable :=
    (splitOf.keys.and clear).imp fun key both => ⟨both.1, both.2⟩
  have keys : ((Tree.mapping authored).axisLocations.map axisOf |>.map Axis.key).Nodup := by
    rw [List.map_map]
    exact (axisLocations_nodup below).of_map.map_on fun l first m second same =>
      axisKey_inj below plain cuttable first second same
  rw [splitOf.axes, splitOf.remainder] at registers
  refine ⟨declared, ?_, below, plain, rfl, cuttable, register_spec keys ?_ registers⟩
  · show Mapping.get? parametersKey _ = _
    rw [Mapping.get?_insert, if_pos rfl]
  · intro axis member
    obtain ⟨l, inside, rfl⟩ := List.mem_map.mp member
    exact distinct_declaration below inside

/-- One entry of an assignment and the axis that it is for. -/
structure NamedBy (parameters : Tree) (t : AliasTable) (said : String × Tree)
    (chosen : Path × Tree) : Prop where
  named : t.aliasOf? (.ofSteps chosen.1) = some said.1
  axis : ∃ declaration, (chosen.1, declaration) ∈ parameters.axisLocations

/-- One entry of an assignment and what it stands for. -/
structure ChosenBy (parameters : Tree) (t : AliasTable) (said : String × Tree)
    (chosen : Path × Tree) : Prop where
  named : t.aliasOf? (.ofSteps chosen.1) = some said.1
  axis : ∃ declaration, (chosen.1, declaration) ∈ parameters.axisLocations ∧
    ∀ meant, Axis.Offers declaration said.2 meant → chosen.2.sameValue meant = true

theorem ChosenBy.namedBy {parameters : Tree} {t : AliasTable} {said : String × Tree}
    {chosen : Path × Tree} (by' : ChosenBy parameters t said chosen) :
    NamedBy parameters t said chosen := by
  obtain ⟨declaration, inside, -⟩ := by'.axis
  exact ⟨by'.named, declaration, inside⟩

variable {parameters : Tree} {t : AliasTable} {declared : Mapping Tree}

/-- A value that an axis offers is understood. -/
theorem StandardOf.resolveChoice (standard : StandardOf parameters t declared)
    {l : Path × Mapping Tree} (member : l ∈ parameters.axisLocations) {name : String}
    (owns : t.aliasOf? (.ofSteps l.1) = some name) {said meant : Tree} (distinct : said.Distinct)
    (offers : Axis.Offers l.2 said meant) :
    ∃ value, AliasTable.resolveChoice t.owners name said t = .ok (.ofSteps l.1, value) ∧
      ChosenBy parameters t (name, said) (l.1, value) := by
  obtain ⟨value, resolves, agrees⟩ := standard.registered.resolveChoice
    (List.mem_map_of_mem (f := axisOf) member) owns distinct offers
  exact ⟨value, resolves, owns, l.2, member, agrees⟩

/-- Every entry names an axis and says what the axis offers. -/
def Allowed (parameters : Tree) (t : AliasTable) (assignment : Mapping Tree) : Prop :=
  ∀ e ∈ assignment, ∃ l ∈ parameters.axisLocations, t.aliasOf? (.ofSteps l.1) = some e.1 ∧
    ∃ meant, Axis.Offers l.2 e.2 meant

theorem StandardOf.resolve (standard : StandardOf parameters t declared)
    {assignment : Mapping Tree} (distinct : DistinctEntries assignment)
    (allowed : Allowed parameters t assignment) :
    ∃ cs : Choices, t.resolve assignment = .ok (cs.map fun c => (.ofSteps c.1, c.2)) ∧
      List.Forall₂ (ChosenBy parameters t) assignment cs := by
  unfold AliasTable.resolve
  induction assignment with
  | nil => exact ⟨[], rfl, .nil⟩
  | cons e rest ih =>
    obtain ⟨l, member, owns, meant, offers⟩ := allowed e List.mem_cons_self
    obtain ⟨value, first, chosen⟩ := standard.resolveChoice member owns distinct.1 offers
    obtain ⟨cs, later, others⟩ := ih distinct.2 fun e inside =>
      allowed e (List.mem_cons_of_mem _ inside)
    refine ⟨(l.1, value) :: cs, ?_, .cons chosen others⟩
    rw [List.mapM_cons]
    dsimp only at later ⊢
    rw [first, later]
    rfl

/-- What is resolved is named, entry by entry. -/
theorem StandardOf.named (standard : StandardOf parameters t declared) {assignment : Mapping Tree}
    {values : List (AxisKey × Tree)} (resolved : t.resolve assignment = .ok values) :
    ∃ cs : Choices, values = cs.map (fun c => (.ofSteps c.1, c.2)) ∧
      List.Forall₂ (NamedBy parameters t) assignment cs := by
  unfold AliasTable.resolve at resolved
  induction assignment generalizing values with
  | nil =>
    obtain rfl := Except.ok.inj resolved
    exact ⟨[], rfl, .nil⟩
  | cons e rest ih =>
    rw [List.mapM_cons] at resolved
    obtain ⟨⟨key, value⟩, first, resolved⟩ := bind_eq_ok.mp resolved
    obtain ⟨others, later, resolved⟩ := bind_eq_ok.mp resolved
    obtain rfl := Except.ok.inj resolved
    obtain ⟨cs, rfl, chosen⟩ := ih later
    have owns : t.aliasOf? key = some e.1 := by
      apply (standard.registered.owners e.1 key).mp
      unfold AliasTable.resolveChoice at first
      split at first
      · cases first
      · next owner owned =>
        -- whatever the value is, the axis is the one that owns the alias
        split at first
        · split at first
          · obtain ⟨rfl, -⟩ := Prod.mk.inj (Except.ok.inj first)
            exact owned
          · cases first
        · obtain ⟨rfl, -⟩ := Prod.mk.inj (Except.ok.inj first)
          exact owned
    obtain ⟨axis, registered, rfl⟩ := List.mem_map.mp (standard.registered.only key e.1 owns)
    obtain ⟨l, location, rfl⟩ := List.mem_map.mp registered
    exact ⟨(l.1, value) :: cs, rfl, .cons ⟨owns, l.2, location⟩ chosen⟩

/-- An alias names one axis. -/
theorem StandardOf.path_eq (standard : StandardOf parameters t declared) {said : String × Tree}
    {chosen : Path × Tree} (by' : NamedBy parameters t said chosen) {l : Path × Mapping Tree}
    (member : l ∈ parameters.axisLocations) (owns : t.aliasOf? (.ofSteps l.1) = some said.1) :
    chosen.1 = l.1 := by
  obtain ⟨declaration, inside⟩ := by'.axis
  have first := (standard.registered.owners said.1 _).mpr by'.named
  have second := (standard.registered.owners said.1 _).mpr owns
  rw [second] at first
  rw [standard.key_inj member inside (Option.some.inj first)]

section Chosen

variable {assignment : Mapping Tree} {cs : Choices}

/-- Different names stand for different axes. -/
theorem named_into (unique : (Mapping.keys assignment).Nodup)
    (chosen : List.Forall₂ (NamedBy parameters t) assignment cs) : cs.Into parameters where
  axes := by
    intro c member
    obtain ⟨e, -, by'⟩ := exists_left chosen c member
    exact by'.axis
  different := by
    have names : (Mapping.keys assignment).map some
        = (cs.map Prod.fst).map fun path => t.aliasOf? (.ofSteps path) := by
      clear unique
      induction chosen with
      | nil => rfl
      | cons first rest ih =>
        rw [List.map_cons, List.map_cons, first.named, Mapping.keys_cons, List.map_cons, ih]
    have once := unique.map (Option.some_injective String)
    rw [names] at once
    exact once.of_map _

theorem chosen_into (unique : (Mapping.keys assignment).Nodup)
    (chosen : List.Forall₂ (ChosenBy parameters t) assignment cs) : cs.Into parameters :=
  named_into unique (chosen.imp fun _ _ by' => by'.namedBy)

/-- What an assignment means: a value that an axis offers for what is said under its alias, and
nothing for an axis whose alias is not mentioned. -/
structure Means (parameters : Tree) (t : AliasTable) (assignment : Mapping Tree)
    (choose : Path → Option Tree) : Prop where
  offered : ∀ path declaration name said, parameters.axisAt? path = some declaration →
    t.aliasOf? (.ofSteps path) = some name → Mapping.get? name assignment = some said →
      ∃ meant, choose path = some meant ∧ Axis.Offers declaration said meant
  omitted : ∀ path declaration name, parameters.axisAt? path = some declaration →
    t.aliasOf? (.ofSteps path) = some name → Mapping.get? name assignment = none →
      choose path = none

/-- The understood choices are what is meant. -/
theorem StandardOf.agrees (standard : StandardOf parameters t declared)
    (unique : (Mapping.keys assignment).Nodup)
    (chosen : List.Forall₂ (ChosenBy parameters t) assignment cs) {choose : Path → Option Tree}
    (means : Means parameters t assignment choose) :
    ∀ l ∈ parameters.axisLocations, SameValue? (cs.at? l.1) (choose l.1) := by
  intro l member
  have different := (chosen_into unique chosen).different
  have found := (mem_axisLocations standard.distinct standard.plain).mp member
  obtain ⟨name, owns⟩ := standard.registered.named _ (List.mem_map_of_mem (f := axisOf) member)
  -- a choice made under the alias of this axis is for this axis
  have own : ∀ {said : Tree} {c : Path × Tree}, ChosenBy parameters t (name, said) c →
      c.1 = l.1 ∧ ∀ meant, Axis.Offers l.2 said meant → c.2.sameValue meant = true := by
    intro said c by'
    obtain ⟨declaration, inside, agrees⟩ := by'.axis
    have here := standard.path_eq by'.namedBy member owns
    refine ⟨here, fun meant offers => agrees meant ?_⟩
    have same := List.inj_on_of_nodup_map (axisLocations_nodup standard.distinct) inside member here
    rwa [← same] at offers
  cases mentioned : Mapping.get? name assignment with
  | some said =>
    obtain ⟨meant, chooses, offers⟩ := means.offered l.1 l.2 name said found owns mentioned
    obtain ⟨c, inside, by'⟩ := exists_right chosen _ (Mapping.mem_of_get? mentioned)
    obtain ⟨here, agrees⟩ := own by'
    have chose : cs.at? l.1 = some c.2 :=
      (Choices.at?_eq_some_iff different).mpr (show (l.1, c.2) ∈ cs from here ▸ inside)
    rw [chooses, chose]
    exact .some (agrees meant offers)
  | none =>
    rw [means.omitted l.1 l.2 name found owns mentioned]
    cases chose : cs.at? l.1 with
    | none => exact .none
    | some value =>
      have inside := (Choices.at?_eq_some_iff different).mp chose
      obtain ⟨e, said, by'⟩ := exists_left chosen _ inside
      have same : e.1 = name := Option.some.inj (by'.named.symm.trans owns)
      rw [Mapping.get?_eq_none_iff, ← same] at mentioned
      exact absurd (Mapping.mem_keys_of_mem said) mentioned

/-- The passes of an assignment that is understood yield the rebuilt parameters. -/
theorem StandardOf.overrides_eq (standard : StandardOf parameters t declared)
    (into : cs.Into parameters)
    (resolved : t.resolve assignment = .ok (cs.map fun c => (.ofSteps c.1, c.2))) :
    t.overrides assignment = .ok (parameters.rebuilt cs) := by
  obtain ⟨base, placed, filled⟩ :=
    passesTo standard.distinct standard.plain standard.container into
  have tokens : (cs.map fun c => (AxisKey.ofSteps c.1, c.2)).map (fun e => (e.1.tokens, e.2))
      = cs.placements := by
    rw [List.map_map]
    refine List.map_congr_left fun c member => ?_
    obtain ⟨declaration, inside⟩ := into.axes c member
    have cuttable := cuttable_of_mem_axisLocations standard.plain standard.keys inside
    simp only [Function.comp, AxisKey.tokens_ofSteps (into.filled c member) cuttable]
  have tree := placeAll_eq_ok (tokens ▸ placed)
  unfold overrides Tree.ofAxisValues
  rw [resolved]
  dsimp only [bind, Except.bind]
  rw [tree]
  dsimp only
  rw [Tree.withDefaults, standard.registered.remainder, filled]
  rfl

/-- The overrides of an assignment are the parameters rebuilt from the choices that it names. -/
theorem StandardOf.exists_choices (standard : StandardOf parameters t declared)
    (unique : (Mapping.keys assignment).Nodup) {overrides : Tree}
    (accepted : t.overrides assignment = .ok overrides) :
    ∃ cs : Choices, t.resolve assignment = .ok (cs.map fun c => (.ofSteps c.1, c.2)) ∧
      List.Forall₂ (NamedBy parameters t) assignment cs ∧ overrides = parameters.rebuilt cs := by
  obtain ⟨values, resolved, -⟩ := bind_eq_ok.mp accepted
  obtain ⟨cs, rfl, chosen⟩ := standard.named resolved
  have whole := standard.overrides_eq (named_into unique chosen) resolved
  exact ⟨cs, resolved, chosen, Except.ok.inj (accepted.symm.trans whole)⟩

end Chosen

/-- Every assignment to aliases of a standardized sweep is accepted, and the overrides that it
stands for are the authored parameters with each axis replaced by the value that is meant, or taken
out, and with lists as mappings from position tokens. -/
theorem overrides_sameValue_withChoices (sweep parameters standard : Tree) (t : AliasTable)
    (distinct : sweep.Distinct) (given : sweep.field? parametersKey = some parameters)
    (clear : parameters.OutsideKeys AxisKey.EndsClear)
    (standardized : ofSweep sweep = .ok (t, standard)) (assignment : Mapping Tree)
    (assigned : (Tree.mapping assignment).Distinct)
    (known : ∀ name ∈ Mapping.keys assignment,
      ((standard.field? parametersKey).bind (Tree.field? name)).isSome)
    (choose : Path → Option Tree) (means : Means parameters t assignment choose) :
    ∃ overrides, t.overrides assignment = .ok overrides ∧
      overrides.sameValue (parameters.withChoices choose) = true := by
  obtain ⟨declared, shown, standardOf⟩ := standardOf_ofSweep distinct given clear standardized
  have allowed : Allowed parameters t assignment := by
    intro e member
    have listed := known e.1 (Mapping.mem_keys_of_mem member)
    rw [shown, Option.bind_some] at listed
    obtain ⟨axis, inside, owns⟩ := (standardOf.registered.listed e.1).mp (Mapping.has_iff.mp listed)
    obtain ⟨l, location, rfl⟩ := List.mem_map.mp inside
    have found := (mem_axisLocations standardOf.distinct standardOf.plain).mp location
    have mentioned := Mapping.get?_of_mem assigned.1 member
    obtain ⟨meant, -, offers⟩ := means.offered l.1 l.2 e.1 e.2 found owns mentioned
    exact ⟨l, location, owns, meant, offers⟩
  obtain ⟨cs, resolved, chosen⟩ := standardOf.resolve assigned.2 allowed
  refine ⟨parameters.rebuilt cs, standardOf.overrides_eq (chosen_into assigned.1 chosen) resolved, ?_⟩
  exact rebuilt_sameValue standardOf.distinct (standardOf.agrees assigned.1 chosen means)

section Layered

/-- Parameters with an axis inside a list, whose values have aliases, and a plain axis. -/
def layeredParameters : Tree :=
  .mapping [
    ("layers", .list [.int 7, .mapping [("width", .mapping [("sweep", .bool true),
      ("values", .list [.int 1, .int 2]), ("sweep_alias", .list [.str "small", .str "large"])])]]),
    ("rate", .mapping [("sweep", .bool true), ("values", .list [.int 3])])]

def layeredSweep : Tree :=
  .mapping [("method", .str "grid"), ("parameters", layeredParameters)]

def layeredTable : AliasTable where
  keys := ⟨[("layers__SEP____IDX__1__SEP__width", "width"), ("rate", "rate")]⟩
  values := ⟨[("large", .int 2), ("small", .int 1)]⟩
  remainder := .mapping [("layers", .mapping [("__IDX__0", .int 7), ("__IDX__1", .mapping [])])]
  aliased := ⟨[("layers__SEP____IDX__1__SEP__width", ())]⟩

def layeredStandard : Tree :=
  .mapping [("method", .str "grid"), ("parameters", .mapping [
    ("width", .mapping [("values", .list [.str "small", .str "large"])]),
    ("rate", .mapping [("values", .list [.int 3])])])]

def widthPath : Path := [.key "layers", .index 1, .key "width"]

def widthChoice (path : Path) : Option Tree :=
  if path = widthPath then some (.int 2) else none

/-- The axes of the parameters are the width and the rate. -/
theorem layered_axes {path : Path} {declaration : Mapping Tree}
    (found : layeredParameters.axisAt? path = some declaration) :
    (path = widthPath ∧ declaration = [("sweep_alias", .list [.str "small", .str "large"]),
      ("values", .list [.int 1, .int 2])]) ∨
    (path = [.key "rate"] ∧ declaration = [("values", .list [.int 3])]) := by
  have inside := (mem_axisLocations (t := layeredParameters) (by decide) rfl).mpr found
  have all : layeredParameters.axisLocations = [(widthPath,
      [("sweep_alias", .list [.str "small", .str "large"]), ("values", .list [.int 1, .int 2])]),
      ([.key "rate"], [("values", .list [.int 3])])] := rfl
  rw [all] at inside
  simpa using inside

theorem widthChoice_meant :
    Means layeredParameters layeredTable [("width", .str "large")] widthChoice where
  offered := by
    intro path declaration name said found owns mentioned
    rcases layered_axes found with ⟨rfl, rfl⟩ | ⟨rfl, rfl⟩
    · obtain rfl : "width" = name := Option.some.inj owns
      obtain rfl : Tree.str "large" = said := Option.some.inj mentioned
      exact ⟨.int 2, rfl, _, _, rfl, rfl, by simp⟩
    · obtain rfl : "rate" = name := Option.some.inj owns
      cases mentioned
  omitted := by
    intro path declaration name found owns mentioned
    rcases layered_axes found with ⟨rfl, rfl⟩ | ⟨rfl, rfl⟩
    · obtain rfl : "width" = name := Option.some.inj owns
      cases mentioned
    · rfl

/-- A width is chosen by its alias and the rate is left out. -/
theorem overrides_layered :
    ∃ overrides, layeredTable.overrides [("width", .str "large")] = .ok overrides ∧
      overrides.sameValue (.mapping [("layers", .mapping [("__IDX__0", .int 7),
        ("__IDX__1", .mapping [("width", .int 2)])])]) = true :=
  overrides_sameValue_withChoices layeredSweep layeredParameters layeredStandard layeredTable
    (by decide) rfl (by decide) rfl [("width", .str "large")] (by decide) (by decide) widthChoice
    widthChoice_meant

end Layered

end AliasTable

end ConfigSweep
