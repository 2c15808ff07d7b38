import ConfigSweep.Proofs.Framing
import ConfigSweep.Proofs.Locality
import ConfigSweep.Proofs.PatchParts

/-!
# Merging part by part

A mapping is merged like its parts one after the other: every plain entry alone, then the groups in
the order of their keys, last the upserts. So a call that is made for one part sees the root as all
earlier parts have left it.
-/

namespace ConfigSweep

variable {evaluator : Evaluator}

section Revealed

variable {t u : Tree}

/-- What is revealed is no list in disguise. -/
theorem Tree.reveal_reveal (done : t.reveal = .ok u) : u.reveal = .ok u :=
  reveal_of_not_disguised (isDisguised_of_reveal done)

end Revealed

namespace Merge

section Root

variable {base opened root r : Tree}

theorem revealed_root_eq_ok {shown : Tree × Tree} :
    Focus.root.revealed root = .ok shown ↔ ∃ t, root.reveal = .ok t ∧ (t, t) = shown := by
  constructor
  · intro done
    obtain ⟨_, reads, done⟩ := bind_eq_ok.mp done
    obtain ⟨t, reveals, done⟩ := bind_eq_ok.mp done
    obtain ⟨_, writes, done⟩ := bind_eq_ok.mp done
    obtain rfl := Option.some.inj (Focus.read_eq_ok.mp reads)
    obtain rfl := Option.some.inj (Focus.write_eq_ok.mp writes)
    exact ⟨t, Stopped.outcome_eq_ok.mp reveals, Except.ok.inj done⟩
  · rintro ⟨t, reveals, rfl⟩
    exact bind_eq_ok.mpr ⟨root, rfl, bind_eq_ok.mpr ⟨t, Stopped.outcome_eq_ok.mpr reveals, rfl⟩⟩

theorem reveal_root_eq_ok : Focus.root.reveal root = .ok r ↔ root.reveal = .ok r := by
  constructor
  · intro done
    obtain ⟨_, revealed, done⟩ := bind_eq_ok.mp done
    obtain ⟨t, reveals, rfl⟩ := revealed_root_eq_ok.mp revealed
    obtain rfl := Except.ok.inj done
    exact reveals
  · intro reveals
    exact bind_eq_ok.mpr ⟨(r, r), revealed_root_eq_ok.mpr ⟨r, reveals, rfl⟩, rfl⟩

/-- How the root is opened depends on what it is revealed as. -/
theorem openMapping_root_eq_ok {noEntries : Bool} : openMapping .root noEntries base = .ok opened ↔
    ∃ t, base.reveal = .ok t ∧ ((∃ m, t = .mapping m ∧ opened = t) ∨
      (t.shape = .leaf ∧ opened = .mapping []) ∨
        ∃ items, t = .list items ∧ noEntries = true ∧ opened = t) := by
  unfold openMapping
  rw [bind_eq_ok]
  constructor
  · rintro ⟨_, revealed, done⟩
    obtain ⟨t, reveals, rfl⟩ := revealed_root_eq_ok.mp revealed
    refine ⟨t, reveals, ?_⟩
    cases t with
    | mapping m => exact .inl ⟨m, rfl, (Except.ok.inj done).symm⟩
    | list items =>
      cases noEntries with
      | true => exact .inr (.inr ⟨items, rfl, rfl, (Except.ok.inj done).symm⟩)
      | false => cases done
    | _ => exact .inr (.inl ⟨rfl, (Except.ok.inj done).symm⟩)
  · rintro ⟨t, reveals, ⟨m, rfl, rfl⟩ | ⟨leaf, rfl⟩ | ⟨items, rfl, rfl, rfl⟩⟩
    · exact ⟨_, revealed_root_eq_ok.mpr ⟨_, reveals, rfl⟩, rfl⟩
    · refine ⟨_, revealed_root_eq_ok.mpr ⟨_, reveals, rfl⟩, ?_⟩
      dsimp only
      rw [leaf]
      rfl
    · exact ⟨_, revealed_root_eq_ok.mpr ⟨_, reveals, rfl⟩, rfl⟩

/-- A mapping that is no list in disguise stays as it is when it is opened. -/
theorem openMapping_mapping {m : Mapping Tree} (plain : Mapping.isPositional m = false)
    (noEntries : Bool) : openMapping .root noEntries (.mapping m) = .ok (.mapping m) :=
  openMapping_root_eq_ok.mpr ⟨_, Tree.reveal_plain plain, .inl ⟨m, rfl, rfl⟩⟩

theorem openMapping_list (items : List Tree) : openMapping .root false (.list items) ≠ .ok r := by
  intro done
  obtain ⟨t, reveals, how⟩ := openMapping_root_eq_ok.mp done
  obtain rfl := Except.ok.inj reveals
  rcases how with ⟨m, same, -⟩ | ⟨leaf, -⟩ | ⟨_, -, noEntries, -⟩
  · cases same
  · cases leaf
  · cases noEntries

/-- A root that is opened for no entries is a list, or a mapping as which it can be opened for
entries too. -/
theorem openMapping_cases (opens : openMapping .root true base = .ok opened) :
    (∃ items, opened = .list items) ∨ ∃ m, opened = .mapping m ∧ Mapping.isPositional m = false ∧
      openMapping .root false base = .ok opened := by
  obtain ⟨t, reveals, how⟩ := openMapping_root_eq_ok.mp opens
  rcases how with ⟨m, rfl, rfl⟩ | ⟨leaf, rfl⟩ | ⟨items, rfl, -, rfl⟩
  · refine .inr ⟨m, rfl, Tree.isDisguised_of_reveal reveals, ?_⟩
    exact openMapping_root_eq_ok.mpr ⟨_, reveals, .inl ⟨m, rfl, rfl⟩⟩
  · refine .inr ⟨[], rfl, rfl, ?_⟩
    exact openMapping_root_eq_ok.mpr ⟨t, reveals, .inr (.inl ⟨leaf, rfl⟩)⟩
  · exact .inl ⟨items, rfl⟩

end Root

section Parts

variable {root r : Tree} {focus : Focus}

/-- Merges patches into the node in focus, one after the other. -/
def inTurn (evaluator : Evaluator) (focus : Focus) (ps : List Patch) (root : Tree) : Outcome Tree :=
  ps.foldlM (fun root p => node evaluator p focus root) root

theorem node_under {p : Patch} {label : String} :
    node evaluator p (focus.under label) root = .ok r ↔ node evaluator p focus root = .ok r :=
  ⟨(node_framed evaluator p).same rfl, (node_framed evaluator p).same rfl⟩

/-- Groups are merged one after the other. -/
theorem revisits_eq_ok {groups : List (String × Patch)} : revisits evaluator groups focus root = .ok r ↔
    inTurn evaluator focus (groups.map Prod.snd) root = .ok r := by
  induction groups generalizing root with
  | nil => exact Iff.rfl
  | cons e rest ih =>
    rw [revisits, inTurn, List.map_cons, List.foldlM_cons, bind_eq_ok, bind_eq_ok]
    simp only [node_under, ih]
    rfl

/-- Upserts are merged one after the other. -/
theorem ordered_eq_ok {upserts : List (Option String × Patch)} {place : Nat} :
    ordered evaluator upserts place focus root = .ok r ↔
      inTurn evaluator focus (upserts.map Prod.snd) root = .ok r := by
  induction upserts generalizing root place with
  | nil => exact Iff.rfl
  | cons u rest ih =>
    rw [ordered, inTurn, List.map_cons, List.foldlM_cons, bind_eq_ok, bind_eq_ok]
    simp only [node_under, ih]
    rfl

theorem keyed_eq_ok {patch : KeyedPatch Patch} : keyed evaluator patch focus root = .ok r ↔
    ∃ opened valued grouped, openMapping focus patch.entries.isEmpty root = .ok opened ∧
      values evaluator patch.entries focus opened = .ok valued ∧
      inTurn evaluator focus (patch.groups.map Prod.snd) valued = .ok grouped ∧
      inTurn evaluator focus (patch.upserts.map Prod.snd) grouped = .ok r := by
  obtain ⟨entries, groups, upserts⟩ := patch
  simp only [keyed, bind_eq_ok, revisits_eq_ok, ordered_eq_ok]
  constructor
  · rintro ⟨opened, opens, valued, first, grouped, second, third⟩
    exact ⟨opened, valued, grouped, opens, first, second, third⟩
  · rintro ⟨opened, valued, grouped, opens, first, second, third⟩
    exact ⟨opened, opens, valued, first, grouped, second, third⟩

/-- The value under a key is merged in place, so a mapping that has a key for no position is left as
such. -/
theorem values_single {m : Mapping Tree} {key : String} {p : Patch}
    (plain : Position.isToken key = false)
    (done : values evaluator [(key, p)] .root (.mapping m) = .ok r) :
    ∃ m', r = .mapping m' ∧ Mapping.isPositional m' = false := by
  obtain ⟨changed, opens, done⟩ := bind_eq_ok.mp done
  obtain ⟨merged, merges, done⟩ := bind_eq_ok.mp done
  obtain rfl := Except.ok.inj done
  obtain ⟨m', there, replaced⟩ := ensureKey_eq_ok.mp opens
  obtain rfl := Tree.mapping.inj (Option.some.inj there)
  obtain rfl := Option.some.inj replaced
  have toChild : (Tree.mapping (opened key m)).child? (.key key)
      = some ((Mapping.get? key m).getD .null) := get?_opened key m
  have below : (Tree.mapping (opened key m)).get? (Focus.root.atKey key).path
      = some ((Mapping.get? key m).getD .null) := by
    rw [Focus.atKey, Tree.get?_concat]
    exact toChild
  obtain ⟨value, written⟩ := (node_framed evaluator p).frame _ below merges
  have whole : (Tree.mapping (opened key m)).get? Focus.root.path = some (.mapping (opened key m)) := rfl
  rw [Focus.atKey, Tree.replace?_concat whole toChild] at written
  obtain rfl := Option.some.inj written
  have has : Mapping.has key (opened key m) = true :=
    Option.isSome_iff_exists.mpr ⟨_, get?_opened key m⟩
  refine ⟨Mapping.insert key value (opened key m), by rw [Tree.setChild, if_pos has], ?_⟩
  exact Mapping.isPositional_of_key (Mapping.mem_keys_insert.mpr (.inl rfl)) plain

end Parts

end Merge

namespace Tree

open Merge Patch

variable {base root r : Tree} {entries : Mapping Tree}

/-- A composed mapping is merged in four passes over the root. -/
theorem merge_composed_eq_ok (composed : entries.Composed) :
    merge evaluator base (.mapping entries) = .ok r ↔ ∃ parts merged,
      PartsFrom .root entries parts ∧ keyed evaluator (ofParts parts) .root base = .ok merged ∧
        merged.reveal = .ok r ∧ r.checkPlain = .ok () := by
  rw [merge_eq_ok]
  constructor
  · rintro ⟨p, reads, merges, plain⟩
    obtain ⟨parts, read, rfl⟩ := composed.ofTree_eq_ok.mp reads
    obtain ⟨merged, merges, reveals⟩ := settle_eq_ok.mp merges
    exact ⟨parts, merged, read, merges, reveal_root_eq_ok.mp reveals, plain⟩
  · rintro ⟨parts, merged, read, merges, reveals, plain⟩
    refine ⟨_, composed.ofTree_eq_ok.mpr ⟨parts, read, rfl⟩, ?_, plain⟩
    exact settle_eq_ok.mpr ⟨merged, merges, reveal_root_eq_ok.mpr reveals⟩

/-- What was merged is no list in disguise and holds no reserved key. -/
theorem merge_settled {t : Tree} (done : merge evaluator base t = .ok r) :
    r.reveal = .ok r ∧ r.checkPlain = .ok () := by
  obtain ⟨p, -, merges, plain⟩ := merge_eq_ok.mp done
  have reveals : ∃ merged : Tree, merged.reveal = .ok r := by
    cases p <;>
    · obtain ⟨merged, -, reveals⟩ := settle_eq_ok.mp merges
      exact ⟨merged, reveal_root_eq_ok.mp reveals⟩
  obtain ⟨merged, reveals⟩ := reveals
  exact ⟨reveal_reveal reveals, plain⟩

/-- Merging nothing opens the root. -/
theorem merge_nil (done : merge evaluator base (.mapping []) = .ok r) :
    openMapping .root true base = .ok r := by
  have composed : Mapping.Composed [] := ⟨List.nodup_nil, rfl, rfl, rfl, nofun⟩
  obtain ⟨parts, merged, read, merges, reveals, -⟩ := (merge_composed_eq_ok composed).mp done
  cases read
  have nothing : ofParts [] = {} := by simp [ofParts]
  rw [nothing, keyed_eq_ok] at merges
  obtain ⟨opened, _, _, opens, first, second, third⟩ := merges
  obtain rfl := Except.ok.inj first
  obtain rfl := Except.ok.inj second
  obtain rfl := Except.ok.inj third
  have kept : opened.reveal = .ok opened := by
    rcases openMapping_cases opens with ⟨items, rfl⟩ | ⟨m, rfl, plain, -⟩
    · rfl
    · exact reveal_plain plain
  obtain rfl := Except.ok.inj (kept.symm.trans reveals)
  exact opens

/-- Merging a plain entry alone opens the root and merges its patch into the value under the key. -/
theorem merge_single {e : String × Tree}
    (alone : Mapping.Composed [e] ∧ e ∈ Mapping.plainEntries [e])
    (done : merge evaluator root (.mapping [e]) = .ok r) :
    ∃ p opened merged, ofTree e.2 = .ok p ∧ openMapping .root false root = .ok opened ∧
      values evaluator [(e.1, p)] .root opened = .ok merged ∧ merged.reveal = .ok r := by
  obtain ⟨parts, merged, read, merges, reveals, -⟩ := (merge_composed_eq_ok alone.1).mp done
  obtain ⟨part, _, first, rest, rfl⟩ := List.forall₂_cons_left_iff.mp read
  cases rest
  cases first with
  | group p named => simp [Mapping.plainEntries, named] at alone
  | upserts us named => simp [Mapping.plainEntries, named] at alone
  | plain p single named reads =>
    have only : ofParts [.plain e.1 p] = { entries := [(e.1, p)] } := by
      have noGroups : [Part.plain e.1 p].filterMap Part.group? = [] := rfl
      simp [ofParts, noGroups, Part.plain?, Part.upserts?]
    rw [only, keyed_eq_ok] at merges
    obtain ⟨opened, _, _, opens, first, second, third⟩ := merges
    obtain rfl := Except.ok.inj second
    obtain rfl := Except.ok.inj third
    exact ⟨p, opened, _, ofTreeAt_eq_ok.mp reads, opens, first, reveals⟩

/-- Merging plain entries one after the other into a mapping merges their patches into the values
under the keys. -/
theorem merge_entries {m : Mapping Tree} (plain : Mapping.isPositional m = false)
    (alone : ∀ e ∈ entries, Mapping.Composed [e] ∧ e ∈ Mapping.plainEntries [e])
    (done : (entries.map fun e => .mapping [e]).foldlM (merge evaluator) (.mapping m) = .ok r) :
    ∃ named, NamedFrom Trail.root.child entries named ∧
      values evaluator named .root (.mapping m) = .ok r := by
  induction entries generalizing m with
  | nil => exact ⟨[], .nil, done⟩
  | cons e rest ih =>
    rw [List.forall_mem_cons] at alone
    rw [List.map_cons, List.foldlM_cons] at done
    obtain ⟨changed, first, later⟩ := bind_eq_ok.mp done
    obtain ⟨p, _, _, reads, opens, merges, reveals⟩ := merge_single alone.1 first
    obtain rfl := Except.ok.inj ((openMapping_mapping plain false).symm.trans opens)
    -- the key keeps the root from being a list in disguise, so the next entry finds it as it is
    obtain ⟨m', rfl, plain'⟩ := values_single (alone.1.1.noPosition e alone.1.2) merges
    obtain rfl := Except.ok.inj ((reveal_plain plain').symm.trans reveals)
    obtain ⟨named, read, valued⟩ := ih plain' alone.2 later
    refine ⟨(e.1, p) :: named, .cons ⟨rfl, ofTreeAt_eq_ok.mpr reads⟩ read, ?_⟩
    rw [← List.singleton_append, values_append]
    exact bind_eq_ok.mpr ⟨_, merges, valued⟩

/-- A root that is opened for nothing and takes plain entries could have been opened for them. -/
theorem merge_opened {opened : Tree} (opens : openMapping .root true base = .ok opened)
    (alone : ∀ e ∈ entries, Mapping.Composed [e] ∧ e ∈ Mapping.plainEntries [e])
    (done : (entries.map fun e => .mapping [e]).foldlM (merge evaluator) opened = .ok r) :
    ∃ named, NamedFrom Trail.root.child entries named ∧
      openMapping .root named.isEmpty base = .ok opened ∧
      values evaluator named .root opened = .ok r := by
  rcases openMapping_cases opens with ⟨items, rfl⟩ | ⟨m, rfl, plain, opens'⟩
  · cases entries with
    | nil => exact ⟨[], .nil, opens, done⟩
    | cons e rest =>
      rw [List.forall_mem_cons] at alone
      rw [List.map_cons, List.foldlM_cons] at done
      obtain ⟨changed, first, -⟩ := bind_eq_ok.mp done
      obtain ⟨_, _, _, -, opensList, -⟩ := merge_single alone.1 first
      exact absurd opensList (openMapping_list items)
  · obtain ⟨named, read, valued⟩ := merge_entries plain alone done
    refine ⟨named, read, ?_, valued⟩
    cases named with
    | nil => exact opens
    | cons => exact opens'

/-- Trees that are merged one after the other are read as patches that are. -/
theorem merge_trees {ts : List Tree} (done : ts.foldlM (merge evaluator) root = .ok r) :
    ∃ ps, TreesFrom ts ps ∧ inTurn evaluator .root ps root = .ok r := by
  induction ts generalizing root with
  | nil => exact ⟨[], .nil, done⟩
  | cons t rest ih =>
    rw [List.foldlM_cons] at done
    obtain ⟨changed, first, later⟩ := bind_eq_ok.mp done
    obtain ⟨p, reads, merges, -⟩ := merge_eq_ok.mp first
    obtain ⟨ps, read, inTurn⟩ := ih later
    exact ⟨p :: ps, .cons reads read, bind_eq_ok.mpr ⟨changed, merges, inTurn⟩⟩

theorem foldlM_merge_settled {t : Tree} {ts : List Tree}
    (done : (t :: ts).foldlM (merge evaluator) base = .ok r) :
    r.reveal = .ok r ∧ r.checkPlain = .ok () := by
  induction ts generalizing t base with
  | nil =>
    obtain ⟨changed, first, done⟩ := bind_eq_ok.mp done
    obtain rfl := Except.ok.inj done
    exact merge_settled first
  | cons u rest ih =>
    rw [List.foldlM_cons] at done
    obtain ⟨changed, -, later⟩ := bind_eq_ok.mp done
    exact ih later

/-- A mapping is merged like its parts one after the other, from the root as it is left by merging
nothing: if every part can be merged into what the earlier ones have made, then the mapping can be
merged at once and gives the same. As this holds for all evaluators, a call is made on the root with
all earlier parts merged. -/
theorem merge_parts (evaluator : Evaluator) (base merged : Tree) (entries : Mapping Tree)
    (composed : entries.Composed) (parts : List Tree) (split : entries.parts? = some parts)
    (inTurn : (.mapping [] :: parts).foldlM (merge evaluator) base = .ok merged) :
    merge evaluator base (.mapping entries) = .ok merged := by
  obtain ⟨upserts, items, rfl⟩ := Option.map_eq_some_iff.mp split
  obtain ⟨reveals, plain⟩ := foldlM_merge_settled inTurn
  rw [List.foldlM_cons] at inTurn
  obtain ⟨opened, first, inTurn⟩ := bind_eq_ok.mp inTurn
  rw [List.foldlM_append, List.foldlM_append] at inTurn
  obtain ⟨grouped, inTurn, last⟩ := bind_eq_ok.mp inTurn
  obtain ⟨valued, second, third⟩ := bind_eq_ok.mp inTurn
  obtain ⟨named, readPlain, opens, values⟩ := merge_opened (merge_nil first)
    (fun e member => composed.alone member) second
  obtain ⟨groups, readGroups, groupsTurn⟩ := merge_trees third
  obtain ⟨us, readUpserts, upsertsTurn⟩ := merge_trees last
  obtain ⟨parts, read⟩ : ∃ parts, PartsFrom .root entries parts := by
    refine exists_parts composed.unique ?_ ?_ items fun t member => ?_
    · intro e member
      obtain ⟨n, -, -, reads⟩ := exists_right readPlain e member
      exact ⟨_, ofTreeAt_eq_ok.mp reads⟩
    · intro e member
      obtain ⟨p, -, reads⟩ := exists_right readGroups e.2 (List.mem_map.mpr ⟨e, member, rfl⟩)
      exact ⟨p, reads⟩
    · obtain ⟨p, -, reads⟩ := exists_right readUpserts t member
      exact ⟨p, reads⟩
  refine (merge_composed_eq_ok composed).mpr ⟨parts, merged, read, ?_, reveals, plain⟩
  -- what the mapping is read as consists of what its parts were read as on their own
  rw [keyed_eq_ok, (entries_ofParts read).unique readPlain,
    (groups_ofParts read).trees.unique readGroups,
    (upserts_ofParts_items composed.unique read items).unique readUpserts]
  exact ⟨opened, valued, grouped, opens, values, groupsTurn, upsertsTurn⟩

section Interleaved

/-- Upserts by position, two groups and two plain entries, none in the order in which they apply.
The rate is looked up in a group and in an upsert. -/
def interleavedEntries : Mapping Tree :=
  [("dy__upsert", .mapping [
      ("__IDX__1", .mapping [("total", .mapping [("dy__eval", .str "rate")])]),
      ("__IDX__0", .mapping [("rate", .int 5)])]),
    ("sweep_group_b", .mapping [("rate", .int 3)]),
    ("xs", .mapping [("__IDX__1", .int 7)]),
    ("sweep_group_a", .mapping [("seen", .mapping [("dy__eval", .str "rate")])]),
    ("rate", .int 2)]

def interleavedParts : List Tree :=
  [.mapping [("xs", .mapping [("__IDX__1", .int 7)])],
    .mapping [("rate", .int 2)],
    .mapping [("seen", .mapping [("dy__eval", .str "rate")])],
    .mapping [("rate", .int 3)],
    .mapping [("rate", .int 5)],
    .mapping [("total", .mapping [("dy__eval", .str "rate")])]]

def interleavedBase : Tree :=
  .mapping [("rate", .int 1), ("xs", .list [.int 1, .int 2])]

def interleavedMerged : Tree :=
  .mapping [("rate", .int 5), ("xs", .list [.int 1, .int 7]), ("seen", .int 2), ("total", .int 5)]

theorem mergeSort_pair {α : Type} (le : α → α → Bool) (a b : α) :
    [a, b].mergeSort le = if le a b then [a, b] else [b, a] := by
  simp [List.mergeSort, List.cons_merge_cons]

theorem interleaved_parts : interleavedEntries.parts? = some interleavedParts := by
  have groups : interleavedEntries.groupEntries =
      [("sweep_group_a", .mapping [("seen", .mapping [("dy__eval", .str "rate")])]),
        ("sweep_group_b", .mapping [("rate", .int 3)])] :=
    mergeSort_pair _ _ _
  have upserts : Mapping.upsertItems? (Mapping.get? Keyword.upsert interleavedEntries) =
      some [.mapping [("rate", .int 5)], .mapping [("total", .mapping [("dy__eval", .str "rate")])]] :=
    congrArg (fun named : Mapping Tree => some (List.map Prod.snd named)) (mergeSort_pair _ _ _)
  unfold Mapping.parts?
  rw [groups, upserts]
  rfl

theorem interleaved_inTurn : (.mapping [] :: interleavedParts).foldlM
    (merge AliasTable.fieldEvaluator) interleavedBase = .ok interleavedMerged := by
  with_unfolding_all rfl

/-- The first call sees the rate before the second group, the second one that of the upsert. -/
theorem merge_parts_interleaved : interleavedEntries.Composed ∧
    merge AliasTable.fieldEvaluator interleavedBase (.mapping interleavedEntries)
      = .ok interleavedMerged := by
  have composed : interleavedEntries.Composed := ⟨by decide, rfl, rfl, rfl, by decide⟩
  exact ⟨composed, merge_parts AliasTable.fieldEvaluator interleavedBase interleavedMerged
    interleavedEntries composed interleavedParts interleaved_parts interleaved_inTurn⟩

end Interleaved

end Tree

end ConfigSweep
