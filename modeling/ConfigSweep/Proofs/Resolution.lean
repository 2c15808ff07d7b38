import ConfigSweep.Proofs.Declarations

/-!
# Registering and resolving

What a registration lists leads back to what was registered: an entry that is chosen from the listed
values of an axis stands for the candidate at its place. Which assignments are resolved at all is
decided entry by entry, and the aliases of values are known to all axes alike.
-/

namespace ConfigSweep.AliasTable

variable {axes : List Axis} {t : AliasTable} {declared : Mapping Tree}

section Choices

/-- An assignment of listed values: under each alias the value at a picked place. An axis that lists
no value there is left out. -/
def pickListed (pick : String → Nat) (declared : Mapping Tree) : Mapping Tree :=
  declared.filterMap fun e =>
    (Axis.candidates (e.2.entries?.getD []))[pick e.1]?.map fun value => (e.1, value)

/-- The candidates of the axes at the places that are picked for their aliases. -/
def pickCandidates (pick : String → Nat) (axes : List Axis) (t : AliasTable) :
    List (AxisKey × Tree) :=
  axes.filterMap fun axis => (t.aliasOf? axis.key).bind fun name =>
    (Axis.candidates axis.declaration)[pick name]?.map fun value => (axis.key, value)

theorem distinct_candidate {declaration : Mapping Tree} (distinct : (Tree.mapping declaration).Distinct)
    {value : Tree} (member : value ∈ Axis.candidates declaration) : value.Distinct := by
  unfold Axis.candidates at member
  split at member
  · next values listed =>
    have whole : (Tree.list values).Distinct :=
      Tree.distinctEntries_iff.mp distinct.2 _ (Mapping.mem_of_get? listed)
    exact Tree.distinct_of_mem_items whole value member
  · cases member

/-- A listed value is offered by its axis, so it is the alias of a value or the value itself. -/
theorem distinct_of_offers {declaration : Mapping Tree} {said meant : Tree}
    (distinct : meant.Distinct) (texts : ∀ said, Axis.Declares declaration said → ∃ text, said = .str text)
    (offers : Axis.Offers declaration said meant) : said.Distinct := by
  unfold Axis.Offers at offers
  split at offers
  · exact offers ▸ distinct
  · next aliases declared =>
    obtain ⟨names, values, rfl, -, member⟩ := offers
    obtain ⟨text, rfl⟩ := texts said ⟨names, declared, (List.of_mem_zip member).1⟩
    exact trivial

/-- Steps that are made for items and yield what is wanted make up a step that yields all that is
wanted. -/
theorem exists_mapM_related {ε α β γ : Type} {f : α → Except ε β} {relation : β → γ → Prop}
    {as : List α} {cs : List γ}
    (each : List.Forall₂ (fun a c => ∃ b, f a = .ok b ∧ relation b c) as cs) :
    ∃ bs, as.mapM f = .ok bs ∧ List.Forall₂ relation bs cs := by
  induction each with
  | nil => exact ⟨[], rfl, .nil⟩
  | cons first rest ih =>
    obtain ⟨b, yields, wanted⟩ := first
    obtain ⟨bs, later, others⟩ := ih
    exact ⟨b :: bs, mapM_eq_ok.mpr (.cons yields (mapM_eq_ok.mp later)), .cons wanted others⟩

end Choices

section Acceptance

/-- An alias of values is known when some axis declares it, and it is a text then. -/
theorem known_iff (registered : RegistrationOf axes .null t declared)
    (listing : ListingOf axes t declared) {said : Tree} :
    (∃ text value, said = .str text ∧ t.values.get? text = some value) ↔
      ∃ axis ∈ axes, Axis.Declares axis.declaration said := by
  constructor
  · rintro ⟨text, value, rfl, found⟩
    exact listing.known text value found
  · rintro ⟨axis, member, declares⟩
    obtain ⟨meant, offers⟩ := (listing.paired axis member).offers declares
    obtain ⟨names, whole, -⟩ := declares
    have has : Mapping.has Keyword.valueAliases axis.declaration = true := by
      simp [Mapping.has, whole]
    obtain ⟨text, value, same, found, -⟩ := (registered.values axis member).meant has said meant offers
    exact ⟨text, value, same, found⟩

/-- A name that is listed belongs to an axis, and no other name has an owner. -/
theorem owner_cases (registered : RegistrationOf axes .null t declared) (name : String) :
    (name ∉ Mapping.keys declared ∧ t.owners.get? name = none) ∨
      ∃ axis ∈ axes, t.aliasOf? axis.key = some name ∧ t.owners.get? name = some axis.key := by
  cases owner : t.owners.get? name with
  | none =>
    refine .inl ⟨fun listed => ?_, rfl⟩
    obtain ⟨axis, -, owns⟩ := (registered.listed name).mp listed
    rw [(registered.owners name axis.key).mpr owns] at owner
    cases owner
  | some key =>
    have owns := (registered.owners name key).mp owner
    obtain ⟨axis, member, rfl⟩ := List.mem_map.mp (registered.only key name owns)
    exact .inr ⟨axis, member, owns, rfl⟩

/-- The entry names an axis, and if values of that axis have aliases, it says an alias that some
axis declares. -/
def Understood (axes : List Axis) (t : AliasTable) (declared : Mapping Tree) (e : String × Tree) :
    Prop :=
  e.1 ∈ Mapping.keys declared ∧
    ∀ axis ∈ axes, Mapping.has Keyword.valueAliases axis.declaration = true →
      t.aliasOf? axis.key = some e.1 → ∃ other ∈ axes, Axis.Declares other.declaration e.2

/-- Why an entry is refused: its name is no alias of an axis, or it says a value that no axis
declares as an alias to an axis whose values have aliases. -/
def RefusedFor (axes : List Axis) (t : AliasTable) (declared : Mapping Tree) (e : String × Tree)
    (failure : Failure) : Prop :=
  (failure = ⟨.unknownAlias e.1, none⟩ ∧ e.1 ∉ Mapping.keys declared) ∨
    ∃ axis ∈ axes, failure = ⟨.unknownValueAlias axis.key e.2, none⟩ ∧
      Mapping.has Keyword.valueAliases axis.declaration = true ∧ t.aliasOf? axis.key = some e.1 ∧
      ¬ ∃ other ∈ axes, Axis.Declares other.declaration e.2

/-- An entry is resolved when it is understood, and refused for a reason otherwise. -/
theorem resolveChoice_cases (registered : RegistrationOf axes .null t declared)
    (listing : ListingOf axes t declared) (e : String × Tree) :
    (Understood axes t declared e ∧ ∃ value, t.resolveChoice t.owners e.1 e.2 = .ok value) ∨
      (¬ Understood axes t declared e ∧ ∃ failure,
        t.resolveChoice t.owners e.1 e.2 = .error failure ∧ RefusedFor axes t declared e failure) := by
  obtain ⟨name, said⟩ := e
  unfold AliasTable.resolveChoice
  dsimp only
  rcases owner_cases registered name with ⟨absent, unowned⟩ | ⟨axis, member, owns, owner⟩
  · rw [unowned]
    exact .inr ⟨fun understood => absent understood.1, _, rfl, .inl ⟨rfl, absent⟩⟩
  · have listed : name ∈ Mapping.keys declared := (registered.listed name).mpr ⟨axis, member, owns⟩
    have aliased := (registered.values axis member).aliased
    -- of the axes, only the owner has the name
    have only : ∀ other ∈ axes, t.aliasOf? other.key = some name → other.key = axis.key := by
      intro other _ ownsToo
      rw [(registered.owners name other.key).mpr ownsToo] at owner
      exact Option.some.inj owner
    rw [owner]
    dsimp only
    by_cases marked : t.isAliased axis.key = true
    · rw [if_pos marked]
      by_cases known : ∃ other ∈ axes, Axis.Declares other.declaration said
      · obtain ⟨text, value, rfl, found⟩ := (known_iff registered listing).mpr known
        refine .inl ⟨⟨listed, fun _ _ _ _ => known⟩, (axis.key, value), ?_⟩
        simp [Tree.text?, found]
      · have unknown : (said.text?.bind fun text => t.values.get? text) = none := by
          cases said with
          | str text =>
            cases found : t.values.get? text with
            | none => simpa [Tree.text?] using found
            | some value =>
              exact absurd ((known_iff registered listing).mp ⟨text, value, rfl, found⟩) known
          | _ => rfl
        rw [unknown]
        have has := aliased.mp marked
        exact .inr ⟨fun understood => known (understood.2 axis member has owns), _, rfl,
          .inr ⟨axis, member, rfl, has, owns, known⟩⟩
    · rw [if_neg marked]
      refine .inl ⟨⟨listed, fun other among has ownsToo => ?_⟩, _, rfl⟩
      have markedToo := (registered.values other among).aliased.mpr has
      rw [only other among ownsToo] at markedToo
      exact absurd markedToo marked

end Acceptance

/-- A registration lists the axes in their order under aliases that are all different, each with its
declaration as seen outside. An assignment of listed values is resolved to the candidates at the
same places, in the same order and up to the order of mapping keys. -/
theorem resolve_pickListed (axes : List Axis) (t : AliasTable) (declared : Mapping Tree)
    (different : (axes.map Axis.key).Nodup)
    (distinct : ∀ axis ∈ axes, (Tree.mapping axis.declaration).Distinct)
    (registers : AliasTable.empty.register axes = .ok (t, declared)) :
    List.Forall₂ (fun axis e => t.aliasOf? axis.key = some e.1 ∧
        e.2 = .mapping (Axis.shown axis.declaration)) axes declared ∧
      (Mapping.keys declared).Nodup ∧
      ∀ pick : String → Nat, ∃ values, t.resolve (pickListed pick declared) = .ok values ∧
        List.Forall₂ (fun got wanted => got.1 = wanted.1 ∧ got.2.sameValue wanted.2 = true) values
          (pickCandidates pick axes t) := by
  have registered : RegistrationOf axes .null t declared := register_spec different distinct registers
  have listing := register_listing different distinct registers
  refine ⟨listing.listed, listing.unique, fun pick => exists_mapM_related ?_⟩
  have among := (List.forall₂_and_left (p := fun axis => axis ∈ axes) axes declared).mpr
    ⟨fun _ member => member, listing.listed⟩
  refine List.Forall₂.flip (forall₂_filterMap among fun axis e related => ?_)
  obtain ⟨member, owns, shown⟩ := related
  have texts : ∀ said, Axis.Declares axis.declaration said → ∃ text, said = .str text := by
    intro said declares
    obtain ⟨text, -, same, -⟩ := (known_iff registered listing).mpr ⟨axis, member, declares⟩
    exact ⟨text, same⟩
  have offered := Axis.offers_of_shown (distinct axis member).1 (listing.paired axis member) (pick e.1)
  rw [owns, Option.bind_some, shown]
  dsimp only [Tree.entries?, Option.getD_some]
  cases candidate : (Axis.candidates axis.declaration)[pick e.1]? with
  | none =>
    rw [candidate] at offered
    cases listed : (Axis.candidates (Axis.shown axis.declaration))[pick e.1]? with
    | none => exact .none
    | some said => rw [listed] at offered; cases offered
  | some meant =>
    rw [candidate] at offered
    cases listed : (Axis.candidates (Axis.shown axis.declaration))[pick e.1]? with
    | none => rw [listed] at offered; cases offered
    | some said =>
      rw [listed] at offered
      cases offered with
      | some offers =>
        have whole := distinct_candidate (distinct axis member) (List.mem_of_getElem? candidate)
        obtain ⟨value, resolves, agrees⟩ := registered.resolveChoice member owns
          (distinct_of_offers whole texts offers) offers
        exact .some ⟨(axis.key, value), resolves, rfl, agrees meant offers⟩

section Shared

/-- Two axes that share an alias of values, and one with a name of its own. -/
def sharedAxes : List Axis :=
  [⟨⟨"model__SEP__type"⟩, [("values", .list [.str "resnet", .str "densenet"]),
      ("sweep_alias", .list [.str "r", .str "d"])]⟩,
    ⟨⟨"head__SEP__type"⟩, [("sweep_alias", .list [.str "r"]), ("values", .list [.str "resnet"])]⟩,
    ⟨⟨"optimizer__SEP__lr"⟩, [("sweep_identifier", .str "rate"),
      ("values", .list [.int 1, .int 2])]⟩]

def sharedTable : AliasTable where
  keys := ⟨[("head__SEP__type", "head.type"), ("model__SEP__type", "model.type"),
    ("optimizer__SEP__lr", "rate")]⟩
  values := ⟨[("d", .str "densenet"), ("r", .str "resnet")]⟩
  aliased := ⟨[("head__SEP__type", ()), ("model__SEP__type", ())]⟩

def sharedListing : Mapping Tree :=
  [("model.type", .mapping [("values", .list [.str "r", .str "d"])]),
    ("head.type", .mapping [("values", .list [.str "r"])]),
    ("rate", .mapping [("values", .list [.int 1, .int 2])])]

theorem shared_registers : AliasTable.empty.register sharedAxes = .ok (sharedTable, sharedListing) :=
  rfl

theorem shared_distinct : ∀ axis ∈ sharedAxes, (Tree.mapping axis.declaration).Distinct := by
  decide

/-- The second type and the second rate are chosen; the other type has no second value. -/
theorem resolve_pickListed_shared : ∃ values,
    sharedTable.resolve [("model.type", .str "d"), ("rate", .int 2)] = .ok values ∧
      List.Forall₂ (fun got wanted => got.1 = wanted.1 ∧ got.2.sameValue wanted.2 = true) values
        [(⟨"model__SEP__type"⟩, .str "densenet"), (⟨"optimizer__SEP__lr"⟩, .int 2)] :=
  (resolve_pickListed sharedAxes sharedTable sharedListing (by decide) shared_distinct
    shared_registers).2.2 fun _ => 1

end Shared

/-- Which assignments are resolved: every name is listed, and an axis whose values have aliases is
given an alias that some axis declares, be it another one. Any other assignment is refused for one
of its entries. -/
theorem resolve_iff (axes : List Axis) (t : AliasTable) (declared : Mapping Tree)
    (different : (axes.map Axis.key).Nodup)
    (distinct : ∀ axis ∈ axes, (Tree.mapping axis.declaration).Distinct)
    (registers : AliasTable.empty.register axes = .ok (t, declared)) (assignment : Mapping Tree) :
    ((∃ values, t.resolve assignment = .ok values) ↔
      ∀ e ∈ assignment, Understood axes t declared e) ∧
    ∀ failure, t.resolve assignment = .error failure →
      ∃ e ∈ assignment, RefusedFor axes t declared e failure := by
  have registered : RegistrationOf axes .null t declared := register_spec different distinct registers
  have listing := register_listing different distinct registers
  refine ⟨⟨?_, fun understood => ?_⟩, fun failure failed => ?_⟩
  · rintro ⟨values, resolved⟩ e member
    obtain ⟨value, -, resolves⟩ := exists_right (mapM_eq_ok.mp resolved) e member
    rcases resolveChoice_cases registered listing e with ⟨understood, -⟩ | ⟨-, failure, fails, -⟩
    · exact understood
    · rw [fails] at resolves
      cases resolves
  · have each : ∀ e ∈ assignment, ∃ value, t.resolveChoice t.owners e.1 e.2 = .ok value := by
      intro e member
      rcases resolveChoice_cases registered listing e with ⟨-, resolves⟩ | ⟨refused, -⟩
      · exact resolves
      · exact absurd (understood e member) refused
    obtain ⟨values, resolved⟩ := exists_forall₂ each
    exact ⟨values, mapM_eq_ok.mpr resolved⟩
  · obtain ⟨e, member, fails⟩ := mapM_eq_error failed
    refine ⟨e, member, ?_⟩
    rcases resolveChoice_cases registered listing e with ⟨-, value, resolves⟩ | ⟨-, own, refuses, cause⟩
    · rw [resolves] at fails
      cases fails
    · rw [refuses] at fails
      exact Except.error.inj fails ▸ cause

/-- An axis is given an alias that only another axis declares. -/
theorem resolve_foreign_alias :
    ¬ Axis.Declares [("sweep_alias", .list [.str "r"]), ("values", .list [.str "resnet"])] (.str "d") ∧
      ∃ values, sharedTable.resolve [("head.type", .str "d")] = .ok values := by
  obtain ⟨accepts, -⟩ := resolve_iff sharedAxes sharedTable sharedListing (by decide) shared_distinct
    shared_registers [("head.type", .str "d")]
  constructor
  · rintro ⟨names, declared, member⟩
    obtain rfl : [Tree.str "r"] = names := Tree.list.inj (Option.some.inj declared)
    simp at member
  · refine accepts.mpr fun e only => ?_
    obtain rfl := List.mem_singleton.mp only
    refine ⟨by decide, fun _ _ _ _ => ⟨_, List.mem_cons_self, _, rfl, ?_⟩⟩
    simp

end ConfigSweep.AliasTable
