import ConfigSweep.Proofs.UpsertOrder

/-!
# Upserts of restored parameters

The overrides of an assignment put the keys that lead to assigned axes first. For a directive that
is written as a list, or under position tokens, this makes no difference, since its upserts are
sorted again. Under other keys the upserts apply in their declared order exactly when the assigned
axes were in the first upserts already, and in that order.
-/

namespace ConfigSweep

namespace Tree

/-- The tokens of the steps to the children. -/
def childKeys (t : Tree) : List String :=
  t.children.map fun c => c.1.token

theorem outside?_append (path more : Path) (t : Tree) :
    t.outside? (path ++ more) = (t.outside? path).bind (outside? more) := by
  induction path generalizing t with
  | nil => rfl
  | cons step rest ih =>
    rw [List.cons_append, outside?, outside?]
    split
    · rfl
    · rw [Option.bind_assoc]
      exact Option.bind_congr fun c _ => ih c

/-- What a path leads to outside axes is reached through a child that is no axis. -/
theorem exists_child_of_outside? {t d : Tree} (distinct : t.Distinct) (plain : d.isAxis = false)
    {step : Step} {rest : Path} (found : t.outside? (step :: rest) = some d) :
    t.isAxis = false ∧ ∃ c, (step, c) ∈ t.children ∧ c.isAxis = false ∧ c.outside? rest = some d := by
  rw [outside?] at found
  split at found
  · cases found
  · next noAxis =>
    obtain ⟨c, toChild, inside⟩ := Option.bind_eq_some_iff.mp found
    refine ⟨by simpa using noAxis, c, (mem_children distinct).mpr toChild, ?_, inside⟩
    cases rest with
    | nil =>
      obtain rfl := Option.some.inj inside
      exact plain
    | cons next more =>
      rw [outside?] at inside
      split at inside
      · cases inside
      · next noAxis => simpa using noAxis

end Tree

namespace Tree

/-- The axes of a node that a path leads to are axes of the whole tree. -/
theorem mem_axisLocations_below {t d : Tree} (distinct : t.Distinct) (plainT : t.isAxis = false)
    (distinctD : d.Distinct) (plain : d.isAxis = false) {path : Path}
    (found : t.outside? path = some d) {l : Path × Mapping Tree} (member : l ∈ d.axisLocations) :
    (path ++ l.1, l.2) ∈ t.axisLocations := by
  rw [mem_axisLocations distinct plainT, axisAt?, outside?_append, found, Option.bind_some]
  exact (mem_axisLocations distinctD plain).mp member

end Tree

namespace Choices

/-- The choices below a path. -/
def along : Path → Choices → Choices
  | [], cs => cs
  | step :: rest, cs => along rest (cs.under step)

theorem mem_along {path rest : Path} {value : Tree} {cs : Choices} :
    (rest, value) ∈ along path cs ↔ (path ++ rest, value) ∈ cs := by
  induction path generalizing cs with
  | nil => rfl
  | cons step more ih => rw [along, ih, mem_under, List.cons_append]

/-- The token that follows a path in another path. -/
def tokenBehind? (path : Path) (whole : Path) : Option String :=
  if path.isPrefixOf whole then (whole.drop path.length).head?.map Step.token else none

theorem leads_along (path : Path) (cs : Choices) :
    (along path cs).leads = cs.filterMap fun c => tokenBehind? path c.1 := by
  induction path generalizing cs with
  | nil =>
    unfold along leads placements Placements.firsts
    rw [List.filterMap_map]
    refine List.filterMap_congr fun c _ => ?_
    simp [tokenBehind?]
  | cons step rest ih =>
    rw [along, ih, under, List.filterMap_filterMap]
    refine List.filterMap_congr fun c _ => ?_
    obtain ⟨steps, value⟩ := c
    cases steps with
    | nil => simp [tokenBehind?]
    | cons first more =>
      by_cases same : first = step
      · simp [tokenBehind?, same]
      · simp [tokenBehind?, same, Ne.symm same]

/-- Choices into a tree are choices into each node outside its axes. -/
theorem Into.along {t d : Tree} {cs : Choices} (into : cs.Into t) (distinct : t.Distinct)
    (plain : d.isAxis = false) {path : Path} (found : t.outside? path = some d) :
    d.Distinct ∧ (Choices.along path cs).Into d := by
  induction path generalizing t cs with
  | nil =>
    obtain rfl := Option.some.inj found
    exact ⟨distinct, into⟩
  | cons step rest ih =>
    obtain ⟨-, c, child, plainChild, inside⟩ := Tree.exists_child_of_outside? distinct plain found
    exact ih (into.under distinct child plainChild) (Tree.distinct_child distinct _ child) inside

end Choices

namespace Tree

section Rebuilt

/-- A child that is no axis stays, and is rebuilt from the choices below it. -/
theorem rebuilt_field? {t : Tree} (cs : Choices) (distinct : t.Distinct) {c : Step × Tree}
    (child : c ∈ t.children) (plain : c.2.isAxis = false) :
    (t.rebuilt cs).field? c.1.token = some (c.2.rebuilt (cs.under c.1)) := by
  rw [rebuilt_eq _ (container_of_child child)]
  show Mapping.get? c.1.token (Mapping.leading _ _) = _
  rw [Mapping.get?_leading, get?_entriesOf _ (children_tokens_nodup distinct) child, rebuiltChild?,
    left?_plain _ _ _ plain]

/-- A node that holds something is rebuilt as a mapping without repeated keys. -/
theorem rebuilt_mapping {t : Tree} (distinct : t.Distinct) (container : t.isLeaf = false) (cs : Choices) :
    ∃ entries, t.rebuilt cs = .mapping entries ∧ (Mapping.keys entries).Nodup := by
  refine ⟨_, rebuilt_eq cs container, ?_⟩
  exact Mapping.nodup_keys_leading _ (nodup_keys_entriesOf _ (children_tokens_nodup distinct))

theorem field?_of_read? {entries : Mapping Tree} (unique : (Mapping.keys entries).Nodup)
    {key : String} {u : Tree} (here : (Tree.mapping entries).read? key = some u) :
    (Tree.mapping entries).field? key = some u := by
  show Mapping.get? key entries = some u
  dsimp only [read?] at here
  split at here
  · exact here
  · split at here
    · cases here
    · exact here
  · obtain ⟨e, last, same⟩ := Option.bind_eq_some_iff.mp here
    obtain ⟨position, -, last⟩ := Option.bind_eq_some_iff.mp last
    split at same
    · next name =>
      obtain rfl := Option.some.inj same
      exact name ▸ Mapping.get?_of_mem unique (Patch.mem_of_lastAt? last)
    · cases same
  · cases here

mutual

/-- The keys of a path lead from a rebuilt tree to the rebuilt directive, and from the patch to the
upserts that it is read as. -/
theorem upsertsAt?_rebuilt : ∀ (path : Path) {t d restored : Tree} {cs : Choices} {trail : Trail}
    {p : Patch}, t.Distinct → d.isAxis = false →
      t.outside? (path ++ [.key Keyword.upsert]) = some d →
        (t.rebuilt cs).upsertsAt? (path.map Step.token) = some restored →
          Patch.ofTreeAt (t.rebuilt cs) trail = .ok p →
            restored = d.rebuilt (cs.along (path ++ [.key Keyword.upsert])) ∧
            ∃ upserts trail', p.upsertsAt? (path.map Step.token) = some upserts ∧
              Patch.upsertsOf restored trail' = .ok upserts
  | [], t, d, restored, cs, trail, p, distinct, plain, found, reached, read => by
    obtain ⟨-, c, child, plainChild, inside⟩ := exists_child_of_outside? distinct plain found
    obtain rfl := Option.some.inj inside
    obtain ⟨entries, shape, unique⟩ := rebuilt_mapping distinct (container_of_child child) cs
    have field := rebuilt_field? cs distinct child plainChild
    rw [shape] at reached read field
    have same := Option.some.inj ((field?_of_read? unique reached).symm.trans field)
    obtain ⟨payload, trail', shown, upserts⟩ := Patch.upserts_of_read unique read reached
    refine ⟨same, payload.upserts, trail', ?_, upserts⟩
    show p.payload?.map KeyedPatch.upserts = _
    rw [shown]
    rfl
  | step :: rest, t, d, restored, cs, trail, p, distinct, plain, found, reached, read => by
    obtain ⟨-, c, child, plainChild, inside⟩ := exists_child_of_outside? distinct plain found
    obtain ⟨entries, shape, unique⟩ := rebuilt_mapping distinct (container_of_child child) cs
    have field := rebuilt_field? cs distinct child plainChild
    have below := distinct_child distinct _ child
    rw [shape] at reached read field
    rw [List.map_cons, upsertsAt?] at reached
    rw [List.map_cons, Patch.upsertsAt?]
    split at reached
    · next directive =>
      rw [if_pos directive]
      obtain ⟨u, here, among⟩ := Option.bind_eq_some_iff.mp reached
      have same := Option.some.inj ((field?_of_read? unique here).symm.trans field)
      rw [directive] at here
      obtain ⟨payload, trail', shown, upserts⟩ := Patch.upserts_of_read unique read here
      rw [same] at among upserts
      rw [shown]
      exact upsertsAmong?_rebuilt rest below plain inside among upserts
    · next directive =>
      rw [if_neg directive]
      obtain ⟨u, here, among⟩ := Option.bind_eq_some_iff.mp reached
      have same := Option.some.inj ((field?_of_read? unique here).symm.trans field)
      obtain ⟨q, trail', shown, reads⟩ := Patch.below_of_read unique read directive here
      rw [same] at among reads
      rw [shown]
      exact upsertsAt?_rebuilt rest below plain inside among reads

theorem upsertsAmong?_rebuilt : ∀ (path : Path) {t d restored : Tree} {cs : Choices}
    {trail : Trail} {us : List (Option String × Patch)}, t.Distinct → d.isAxis = false →
      t.outside? (path ++ [.key Keyword.upsert]) = some d →
        (t.rebuilt cs).upsertsAmong? (path.map Step.token) = some restored →
          Patch.upsertsOf (t.rebuilt cs) trail = .ok us →
            restored = d.rebuilt (cs.along (path ++ [.key Keyword.upsert])) ∧
            ∃ upserts trail', Patch.upsertsAmong? (path.map Step.token) us = some upserts ∧
              Patch.upsertsOf restored trail' = .ok upserts
  | [], _, _, _, _, _, _, _, _, _, reached, _ => by cases reached
  | step :: rest, t, d, restored, cs, trail, us, distinct, plain, found, reached, read => by
    obtain ⟨-, c, child, plainChild, inside⟩ := exists_child_of_outside? distinct plain found
    obtain ⟨entries, shape, unique⟩ := rebuilt_mapping distinct (container_of_child child) cs
    have field := rebuilt_field? cs distinct child plainChild
    rw [shape] at reached read field
    obtain ⟨u, here, among⟩ := Option.bind_eq_some_iff.mp reached
    have same := Option.some.inj (here.symm.trans field)
    obtain ⟨q, trail', shown, reads⟩ := Patch.upsert_of_field unique read here
    rw [same] at among reads
    rw [List.map_cons, Patch.upsertsAmong?, shown]
    exact upsertsAt?_rebuilt rest (distinct_child distinct _ child) plain inside among reads

end

/-- When all axes of a node are chosen, its rebuilt form has all of its keys. -/
theorem keys_rebuilt_complete {t : Tree} {cs : Choices} (into : cs.Into t)
    (complete : ∀ l ∈ t.axisLocations, ∃ value, (l.1, value) ∈ cs) {entries : Mapping Tree}
    (shape : t.rebuilt cs = .mapping entries) :
    Mapping.keys entries = moveToFront cs.leads t.childKeys := by
  have container : t.isLeaf = false := by
    by_contra leaf
    rw [Bool.not_eq_false] at leaf
    rw [rebuilt_leaf _ leaf] at shape
    rw [shape] at leaf
    cases leaf
  have present : ∀ c ∈ t.children, (rebuiltChild? cs c).isSome = true := by
    intro c child
    cases axis : c.2.axisDeclaration? with
    | none =>
      rw [rebuiltChild?, left?_plain _ _ _ (by simp [isAxis, axis])]
      rfl
    | some declaration =>
      obtain ⟨value, chosen⟩ :=
        complete ([c.1], declaration) (mem_axisLocations_iff.mpr ⟨c, child, .inl ⟨rfl, axis⟩⟩)
      rw [rebuiltChild?, left?_axis _ _ _ (by simp [isAxis, axis]),
        (Choices.at?_eq_some_iff into.different).mpr chosen]
      rfl
  have keys : Mapping.keys (entriesOf t.children (rebuiltChild? cs)) = t.childKeys := by
    rw [keys_entriesOf, List.filter_eq_self.mpr present]
    rfl
  rw [rebuilt_eq _ container] at shape
  obtain rfl := Tree.mapping.inj shape
  rw [Mapping.keys_leading, keys, moveToFront]
  intro key member
  obtain ⟨c, child, rfl⟩ := into.mem_leads member
  rw [keys]
  exact List.mem_map.mpr ⟨c, child, rfl⟩

end Rebuilt

section Lists

theorem childKeys_list (items : List Tree) :
    (Tree.list items).childKeys = (List.range' 0 items.length).map Position.token := by
  have counted : ∀ (items : List Tree) (start : Nat), (numbered items start).map
      (fun c => c.1.token) = (List.range' start items.length).map Position.token := by
    intro items
    induction items with
    | nil => intro start; rfl
    | cons t ts ih =>
      intro start
      rw [numbered, List.map_cons, ih, List.length_cons, List.range'_succ, List.map_cons]
      rfl
  exact counted items 0

theorem rank_token {position : Nat} (fits : position < Word.bound) :
    Position.rank (Position.token position) = position := by
  rw [Position.rank, Position.ofToken?_token fits]
  rfl

variable {items : List Tree}

theorem ranks_list (fits : items.length < Word.bound) :
    (Tree.list items).childKeys.map Position.rank = List.range' 0 items.length := by
  rw [childKeys_list, List.map_map]
  refine (List.map_congr_left fun position member => ?_).trans (List.map_id _)
  have below := (List.mem_range'_1.mp member).2
  exact rank_token (by omega)

theorem tokens_list (fits : items.length < Word.bound) :
    (Tree.list items).childKeys.all Position.isToken = true := by
  rw [childKeys_list, List.all_eq_true]
  intro key member
  obtain ⟨position, inside, rfl⟩ := List.mem_map.mp member
  have below := (List.mem_range'_1.mp inside).2
  rw [Position.isToken, Position.ofToken?_token (by omega)]
  rfl

/-- The items of a list are in the order of their positions. -/
theorem upsertOrder_list (fits : items.length < Word.bound) :
    upsertOrder (Tree.list items).childKeys = (Tree.list items).childKeys := by
  have ascending : ((Tree.list items).childKeys.map Position.rank).Pairwise (· ≤ ·) := by
    rw [ranks_list fits]
    exact List.pairwise_le_range'
  rw [List.pairwise_map] at ascending
  rw [upsertOrder, if_pos (tokens_list fits), List.mergeSort_of_pairwise]
  exact ascending.imp fun inOrder => decide_eq_true inOrder

theorem orderKept_list (fits : items.length < Word.bound) {moved : List String}
    (known : ∀ key ∈ moved, key ∈ (Tree.list items).childKeys) :
    OrderKept moved (Tree.list items).childKeys := by
  apply orderKept_of_ranks (tokens_list fits) known
  rw [ranks_list fits]
  exact List.nodup_range'

end Lists

end Tree

namespace AliasTable

/-- The path of the axis that an alias names. -/
def axisNamed? (parameters : Tree) (name : String) (t : AliasTable) : Option Path :=
  (parameters.axisLocations.find? fun l => t.aliasOf? (.ofSteps l.1) == some name).map Prod.fst

/-- The tokens behind a path that lead to the axes which an assignment names, in its order. -/
def namedBelow (parameters : Tree) (path : Path) (assignment : Mapping Tree) (t : AliasTable) :
    List String :=
  (Mapping.keys assignment).filterMap fun name =>
    (t.axisNamed? parameters name).bind (Choices.tokenBehind? path)

variable {parameters : Tree} {t : AliasTable} {declared : Mapping Tree}

theorem StandardOf.axisNamed? (standard : StandardOf parameters t declared) {said : String × Tree}
    {chosen : Path × Tree} (by' : NamedBy parameters t said chosen) :
    t.axisNamed? parameters said.1 = some chosen.1 := by
  obtain ⟨declaration, member⟩ := by'.axis
  unfold AliasTable.axisNamed?
  cases found : parameters.axisLocations.find? fun l => t.aliasOf? (.ofSteps l.1) == some said.1 with
  | none =>
    have none' := List.find?_eq_none.mp found _ member
    simp [by'.named] at none'
  | some l =>
    have named : t.aliasOf? (.ofSteps l.1) = some said.1 := by simpa using List.find?_some found
    rw [standard.path_eq by' (List.mem_of_find?_eq_some found) named]
    rfl

theorem StandardOf.leads_along (standard : StandardOf parameters t declared)
    {assignment : Mapping Tree} {cs : Choices}
    (chosen : List.Forall₂ (NamedBy parameters t) assignment cs) (path : Path) :
    (Choices.along path cs).leads = t.namedBelow parameters path assignment := by
  rw [Choices.leads_along]
  unfold namedBelow Mapping.keys
  rw [List.filterMap_map]
  induction chosen with
  | nil => rfl
  | @cons e c rest cs first later ih =>
    have named := standard.axisNamed? first
    rw [List.filterMap_cons, List.filterMap_cons, ih, Function.comp, named, Option.bind_some]

/-- The upserts of a directive as they are read back from the overrides of an assignment to all
axes: the patches of its entries, in their declared order exactly when the axes that the assignment
names first belong to the first entries. A directive that is written as a list always keeps its
order. -/
theorem upserts_in_order_iff (sweep parameters standard : Tree) (t : AliasTable)
    (distinct : sweep.Distinct) (given : sweep.field? parametersKey = some parameters)
    (clear : parameters.OutsideKeys AxisKey.EndsClear) (fit : parameters.ListsFit)
    (standardized : ofSweep sweep = .ok (t, standard)) (assignment : Mapping Tree)
    (unique : (Mapping.keys assignment).Nodup)
    (complete : ∀ name, ((standard.field? parametersKey).bind (Tree.field? name)).isSome →
      name ∈ Mapping.keys assignment)
    (overrides : Tree) (accepted : t.overrides assignment = .ok overrides) (patch : Patch)
    (read : Patch.ofTree overrides = .ok patch) (path : Path) (directive restored : Tree)
    (authored : parameters.outside? (path ++ [.key Keyword.upsert]) = some directive)
    (plain : directive.isAxis = false)
    (reached : overrides.upsertsAt? (path.map Step.token) = some restored) :
    ∃ upserts, patch.upsertsAt? (path.map Step.token) = some upserts ∧
      (∀ u ∈ upserts, ∃ key value trail, u.1 = some key ∧ restored.field? key = some value ∧
        Patch.ofTreeAt value trail = .ok u.2) ∧
      (upserts.map Prod.fst = (upsertOrder directive.childKeys).map some ↔
        OrderKept (t.namedBelow parameters (path ++ [.key Keyword.upsert]) assignment)
          directive.childKeys) ∧
      (∀ items, directive = .list items → upserts.map Prod.fst = directive.childKeys.map some) := by
  obtain ⟨declared, shown, standardOf⟩ := standardOf_ofSweep distinct given clear standardized
  obtain ⟨cs, -, chosen, rfl⟩ := standardOf.exists_choices unique accepted
  have into := named_into unique chosen
  obtain ⟨rebuilds, upserts, trail, found, upserted⟩ :=
    Tree.upsertsAt?_rebuilt path standardOf.distinct plain authored reached read
  obtain ⟨distinctBelow, intoBelow⟩ := into.along standardOf.distinct plain authored
  have completeBelow : ∀ l ∈ directive.axisLocations, ∃ value,
      (l.1, value) ∈ Choices.along (path ++ [.key Keyword.upsert]) cs := by
    intro l member
    have location := Tree.mem_axisLocations_below standardOf.distinct standardOf.plain
      distinctBelow plain authored member
    have axis := List.mem_map_of_mem (f := Tree.axisOf) location
    obtain ⟨name, owns⟩ := standardOf.registered.named _ axis
    have listed := (standardOf.registered.listed name).mpr ⟨_, axis, owns⟩
    have mentioned := complete name (by rw [shown]; exact Mapping.has_iff.mpr listed)
    obtain ⟨said, value⟩ := Mapping.exists_get?_of_mem_keys mentioned
    obtain ⟨c, inside, by'⟩ := exists_right chosen _ (Mapping.mem_of_get? value)
    have here : c.1 = _ ++ l.1 := standardOf.path_eq by' location owns
    exact ⟨c.2, Choices.mem_along.mpr (here ▸ inside)⟩
  refine ⟨upserts, found, ?_⟩
  rw [← standardOf.leads_along chosen]
  by_cases leaf : directive.isLeaf = true
  · -- only lists and mappings are read as upserts
    rw [rebuilds, Tree.rebuilt_leaf _ leaf] at upserted
    cases directive with
    | list items => cases leaf
    | mapping entries => cases leaf
    | _ => cases upserted
  · rw [Bool.not_eq_true] at leaf
    obtain ⟨entries, shape, once⟩ := Tree.rebuilt_mapping distinctBelow leaf
      (Choices.along (path ++ [.key Keyword.upsert]) cs)
    have keys := Tree.keys_rebuilt_complete intoBelow completeBelow shape
    rw [rebuilds, shape] at upserted
    rw [rebuilds, shape]
    cases Patch.upsertsOf_iff.mp upserted with
    | @named _ named read =>
      have known : ∀ key ∈ (Choices.along (path ++ [.key Keyword.upsert]) cs).leads,
          key ∈ directive.childKeys := by
        intro key member
        obtain ⟨c, child, rfl⟩ := intoBelow.mem_leads member
        exact List.mem_map.mpr ⟨c, child, rfl⟩
      have order := keys_orderUpserts named
      rw [← Patch.NamedFrom.keys read, keys] at order
      have kept : upsertOrder (moveToFront _ directive.childKeys) = upsertOrder directive.childKeys ↔ _ :=
        upsertOrder_moveToFront_iff (Tree.children_tokens_nodup distinctBelow) known
      refine ⟨fun u member => ?_, ?_, ?_⟩
      · obtain ⟨e, inside, rfl⟩ := Patch.mem_orderUpserts member
        obtain ⟨⟨key, value⟩, among, rfl, from'⟩ := exists_left read e inside
        exact ⟨_, value, _, rfl, Mapping.get?_of_mem once among, from'⟩
      · rw [order, (List.map_injective_iff.mpr (Option.some_injective String)).eq_iff]
        exact kept
      · rintro items rfl
        have short : items.length < Word.bound := (fit.outside standardOf.distinct authored).here
        rw [order, kept.mpr (Tree.orderKept_list short known), Tree.upsertOrder_list short]

section Moved

/-- Two upserts, the second of which holds an axis. -/
def laterAxis : Tree :=
  .mapping [("dy__upsert", .mapping [("first", .mapping [("lr", .int 1)]),
    ("second", .mapping [("lr", .mapping [("sweep", .bool true), ("values", .list [.int 2])])])])]

def laterTable : AliasTable where
  keys := ⟨[("dy__upsert__SEP__second__SEP__lr", "lr")]⟩
  remainder := .mapping [("dy__upsert", .mapping [("first", .mapping [("lr", .int 1)]),
    ("second", .mapping [])])]

/-- The upserts as they are restored. -/
def laterRestored : Tree :=
  .mapping [("second", .mapping [("lr", .int 2)]), ("first", .mapping [("lr", .int 1)])]

def laterPatch : Patch :=
  .keyed ⟨[], [], [(some "second", .keyed ⟨[("lr", .scalar (.int 2))], [], []⟩),
    (some "first", .keyed ⟨[("lr", .scalar (.int 1))], [], []⟩)]⟩

theorem later_overrides :
    laterTable.overrides [("lr", .int 2)] = .ok (.mapping [("dy__upsert", laterRestored)]) := by
  have resolved : laterTable.resolve [("lr", .int 2)]
      = .ok [(⟨"dy__upsert__SEP__second__SEP__lr"⟩, .int 2)] := rfl
  have tokens : (AxisKey.mk "dy__upsert__SEP__second__SEP__lr").tokens
      = ["dy__upsert", "second", "lr"] := by decide
  unfold overrides Tree.ofAxisValues
  rw [resolved]
  dsimp only [bind, Except.bind]
  rw [Tree.placeAll, tokens]
  rfl

/-- The upsert that holds the assigned axis applies before the one that was declared first. -/
theorem upserts_moved : ∃ upserts, laterPatch.upsertsAt? [] = some upserts ∧
    upserts.map Prod.fst ≠ [some "first", some "second"] := by
  let declared : Mapping Tree := [("lr", .mapping [("values", .list [.int 2])])]
  have all : ∀ name, (Mapping.get? name declared).isSome → name ∈ Mapping.keys declared :=
    fun name shown => Mapping.has_iff.mp shown
  obtain ⟨upserts, found, -, kept, -⟩ := upserts_in_order_iff
    (.mapping [("parameters", laterAxis)]) laterAxis
    (.mapping [("parameters", .mapping declared)]) laterTable (by decide) rfl (by decide) (by decide)
    rfl [("lr", .int 2)] (by decide) all (.mapping [("dy__upsert", laterRestored)])
    later_overrides laterPatch (by with_unfolding_all rfl) [] _ laterRestored rfl rfl rfl
  refine ⟨upserts, found, fun same => ?_⟩
  have front : OrderKept ["second"] ["first", "second"] := kept.mp same
  unfold OrderKept at front
  rw [if_neg (by decide)] at front
  exact absurd front (by decide)

end Moved

end AliasTable

end ConfigSweep
