import ConfigSweep.Proofs.AxisKey
import ConfigSweep.Proofs.Registration
import ConfigSweep.Proofs.TokenTrie

/-!
# Aliases that are derived from keys

An axis that declares no names of its own is known by the shortest run of tokens at the end of its
key that ends no other key, or by all tokens where every run is shared. Such aliases never clash:
a run that ends two keys is not the shortest for either, and a whole key ends no other key that is
all its tokens. So a registration of such axes always succeeds.
-/

namespace ConfigSweep

section Dots

/-- Tokens without dots come back from the text that joins them with dots. -/
theorem intercalate_dots_inj {first second : List String} (filled : first ≠ [] ∧ second ≠ [])
    (dotless : (∀ token ∈ first, '.' ∉ token.toList) ∧ ∀ token ∈ second, '.' ∉ token.toList)
    (same : ".".intercalate first = ".".intercalate second) : first = second := by
  have cut : ∀ {tokens : List String}, tokens ≠ [] → (∀ token ∈ tokens, '.' ∉ token.toList) →
      Text.pieces ['.'] (".".intercalate tokens).toList = tokens.map String.toList := by
    intro tokens filled dotless
    rw [String.toList_intercalate]
    refine (Text.pieces_intercalate_iff (List.cons_ne_nil _ _) (by simpa using filled) ?_).mpr ?_
    · rintro _ member inside
      obtain ⟨token, among, rfl⟩ := List.mem_map.mp member
      exact dotless token among (inside.subset (List.mem_singleton_self _))
    · intro text member run some ends early
      obtain ⟨token, among, rfl⟩ := List.mem_map.mp (List.dropLast_subset _ member)
      obtain ⟨c, rest, rfl⟩ := List.exists_cons_of_ne_nil some
      have dot : '.' = c := (List.cons_prefix_cons.mp early).1
      exact dotless token among (ends.subset (dot ▸ List.mem_cons_self))
  have texts := cut filled.1 dotless.1
  rw [same, cut filled.2 dotless.2] at texts
  exact List.map_injective_iff.mpr (fun _ _ => String.toList_inj.mp) texts.symm

end Dots

namespace AxisKey

/-- The tokens of a key from the root on, where the key is cut from the right. -/
def levels (key : AxisKey) : List String :=
  key.tokensFromRight.reverse

theorem tokensFromRight_ne_nil (key : AxisKey) : key.tokensFromRight ≠ [] := by
  simp [tokensFromRight, Text.piecesFromRight, Text.pieces, Text.piecesFrom_ne_nil]

/-- The run ends a key other than the given one. -/
def Shared (keys : List AxisKey) (key : AxisKey) (run : List String) : Prop :=
  ∃ other ∈ keys, other ≠ key ∧ run <:+ other.levels

/-- The run that stands for a key: it ends the key, every shorter one ends another key too, and it
ends no other key itself unless it is the whole key. -/
structure ShortestRun (key : AxisKey) (keys : List AxisKey) (run : List String) : Prop where
  filled : run ≠ []
  trailing : run <:+ key.levels
  shorter : ∀ other, other ≠ [] → other <:+ run → other ≠ run → Shared keys key other
  own : ¬ Shared keys key run ∨ run = key.levels

section Runs

variable {keys : List AxisKey} {key : AxisKey}

/-- The counting trie of the keys, which takes them in from the right. -/
abbrev trieOf (keys : List AxisKey) : TokenTrie :=
  .ofLists (keys.map tokensFromRight)

/-- The run that the trie of the keys finds for a key. -/
def derivedRun (keys : List AxisKey) (key : AxisKey) : List String :=
  ((trieOf keys).unsharedRun key.tokensFromRight).reverse

theorem reverse_prefix_iff {run : List String} :
    run <+: key.tokensFromRight ↔ run.reverse <:+ key.levels :=
  List.reverse_suffix.symm

/-- One key passes where a run of the key leads exactly when no other key has the run. -/
theorem passing_eq_one_iff (different : keys.Nodup) (member : key ∈ keys) {run : List String}
    (filled : run ≠ []) (begins : run <+: key.tokensFromRight) :
    (trieOf keys).passing run = 1 ↔ ¬ Shared keys key run.reverse := by
  have begun : ∀ other : AxisKey, run.isPrefixOf other.tokensFromRight = true ↔
      run.reverse <:+ other.levels := fun other => by
    rw [List.isPrefixOf_iff_prefix, reverse_prefix_iff]
  have own : key ∈ keys.filter fun other => run.isPrefixOf other.tokensFromRight :=
    List.mem_filter.mpr ⟨member, List.isPrefixOf_iff_prefix.mpr begins⟩
  rw [TokenTrie.passing_ofLists _ filled, List.countP_map, List.countP_eq_length_filter]
  constructor
  · rintro single ⟨other, among, away, ends⟩
    obtain ⟨only, whole⟩ := List.length_eq_one_iff.mp single
    have inside : other ∈ keys.filter fun other => run.isPrefixOf other.tokensFromRight :=
      List.mem_filter.mpr ⟨among, (begun other).mpr ends⟩
    rw [Function.comp_def] at whole
    rw [whole, List.mem_singleton] at inside own
    exact away (inside.trans own.symm)
  · intro unshared
    have alone : (keys.filter fun other => run.isPrefixOf other.tokensFromRight).Perm [key] := by
      refine (List.perm_ext_iff_of_nodup (different.filter _) (List.nodup_singleton key)).mpr ?_
      refine fun other => ⟨fun inside => ?_, fun here => List.mem_singleton.mp here ▸ own⟩
      obtain ⟨among, starts⟩ := List.mem_filter.mp inside
      by_contra away
      exact unshared ⟨other, among, by simpa using away, (begun other).mp starts⟩
    exact alone.length_eq

/-- The way down the trie finds the run that stands for a key. -/
theorem shortestRun_derivedRun (different : keys.Nodup) (member : key ∈ keys) :
    key.ShortestRun keys (derivedRun keys key) := by
  have passes : ∀ run, run ≠ [] → run <+: key.tokensFromRight → (trieOf keys).passing run ≠ 0 := by
    intro run filled begins
    rw [TokenTrie.passing_ofLists _ filled, ← Nat.pos_iff_ne_zero, List.countP_pos_iff]
    exact ⟨_, List.mem_map_of_mem member, List.isPrefixOf_iff_prefix.mpr begins⟩
  have found := TokenTrie.unsharedRun_endsAt key.tokensFromRight_ne_nil passes
  unfold derivedRun
  generalize (trieOf keys).unsharedRun key.tokensFromRight = run at found
  refine
    { filled := List.reverse_ne_nil_iff.mpr found.filled
      trailing := reverse_prefix_iff.mp found.begins
      shorter := fun other filled ends away => ?_
      own := ?_ }
  · have within : other.reverse <+: run := by
      rw [← List.reverse_suffix, List.reverse_reverse]
      exact ends
    have passed := found.passed other.reverse (List.reverse_ne_nil_iff.mpr filled) within
      fun same => away (by rw [← same, List.reverse_reverse])
    rw [Ne, passing_eq_one_iff different member (List.reverse_ne_nil_iff.mpr filled)
      (within.trans found.begins), not_not, List.reverse_reverse] at passed
    exact passed
  · rcases found.ends with single | whole
    · exact .inl ((passing_eq_one_iff different member found.filled found.begins).mp single)
    · exact .inr (by rw [whole, levels])

/-- A run stands for one key only. -/
theorem ShortestRun.inj {other : AxisKey} {run : List String} (first : ShortestRun key keys run)
    (second : ShortestRun other keys run) (known : key ∈ keys ∧ other ∈ keys) : key = other := by
  by_contra away
  have wholeFirst : run = key.levels :=
    first.own.resolve_left fun unshared => unshared ⟨other, known.2, Ne.symm away, second.trailing⟩
  have wholeSecond : run = other.levels :=
    second.own.resolve_left fun unshared => unshared ⟨key, known.1, away, first.trailing⟩
  exact away (tokensFromRight_inj (List.reverse_injective (wholeFirst.symm.trans wholeSecond)))

/-- The dotted forms of the runs that stand for keys without dots are all different. -/
theorem nodup_dotted (different : keys.Nodup)
    (dotless : ∀ key ∈ keys, ∀ token ∈ key.tokensFromRight, '.' ∉ token.toList) :
    (keys.map fun key => ".".intercalate (derivedRun keys key)).Nodup := by
  have shortest : ∀ key ∈ keys, key.ShortestRun keys (derivedRun keys key) := fun key member =>
    shortestRun_derivedRun different member
  have plain : ∀ key ∈ keys, ∀ token ∈ derivedRun keys key, '.' ∉ token.toList := by
    intro key member token inside
    have level := (shortest key member).trailing.subset inside
    exact dotless key member token (List.mem_reverse.mp level)
  refine (List.nodup_map_iff_inj_on different).mpr fun a first b second same => ?_
  have runs := intercalate_dots_inj ⟨(shortest a first).filled, (shortest b second).filled⟩
    ⟨plain a first, plain b second⟩ same
  exact (shortest a first).inj (runs ▸ shortest b second) ⟨first, second⟩

end Runs

end AxisKey

namespace AliasTable

/-- The axis declares neither a name of its own nor names for its values. -/
structure Nameless (axis : Axis) : Prop where
  identifier : Mapping.has Keyword.identifier axis.declaration = false
  valueAliases : Mapping.has Keyword.valueAliases axis.declaration = false

instance (axis : Axis) : Decidable (Nameless axis) :=
  decidable_of_iff (_ ∧ _)
    ⟨fun both => ⟨both.1, both.2⟩, fun both => ⟨both.identifier, both.valueAliases⟩⟩

/-- Axes without names of their own are registered as they are. -/
theorem registerDeclared_nameless {axes : List Axis} (nameless : ∀ axis ∈ axes, Nameless axis)
    (owners : Owners) (t : AliasTable) :
    registerDeclared axes owners t = .ok ⟨owners, t, axes⟩ := by
  induction axes with
  | nil => rfl
  | cons axis rest ih =>
    rw [List.forall_mem_cons] at nameless
    have absent : ∀ {key}, Mapping.has key axis.declaration = false →
        Mapping.get? key axis.declaration = none ∧ axis.declaration.remove key = axis.declaration := by
      intro key none
      have away := Mapping.has_eq_false_iff.mp none
      exact ⟨Mapping.get?_eq_none_iff.mpr away, Mapping.remove_of_absent away⟩
    obtain ⟨noName, named⟩ := absent nameless.1.identifier
    obtain ⟨noValues, valued⟩ := absent nameless.1.valueAliases
    have identified : t.registerIdentifier axis owners = .ok (owners, t) := by
      rw [registerIdentifier, noName]
    have registered : t.registerValues axis.key axis.declaration = .ok (t, axis.declaration) := by
      rw [registerValues, noValues, valued]
    rw [registerDeclared, identified]
    dsimp only
    rw [named, registered]
    dsimp only [bind, Except.bind]
    rw [ih nameless.2]
    rfl

/-- Derived aliases that are all different and have no owners yet are claimed one after the
other. -/
theorem claimDerived_eq_ok {trie : TokenTrie} {keys : List AxisKey} {owners : Owners}
    (different : (keys.map fun key => derivedAlias trie key.tokensFromRight).Nodup)
    (free : ∀ key ∈ keys, owners.get? (derivedAlias trie key.tokensFromRight) = none) :
    claimDerived trie keys owners
      = .ok (keys.map fun key => (key, derivedAlias trie key.tokensFromRight)) := by
  induction keys generalizing owners with
  | nil => rfl
  | cons key rest ih =>
    rw [List.map_cons, List.nodup_cons] at different
    rw [List.forall_mem_cons] at free
    refine bind_eq_ok.mpr ⟨_, claim_eq_ok.mpr (.inl ⟨free.1, rfl⟩), ?_⟩
    refine bind_eq_ok.mpr ⟨_, ih different.2 fun other member => ?_, rfl⟩
    have away : derivedAlias trie other.tokensFromRight ≠ derivedAlias trie key.tokensFromRight :=
      fun same => different.1 (same ▸ List.mem_map_of_mem member)
    rw [Table.get?_insert, if_neg away, free.2 other member]

theorem aliasOf?_setKeys (name : AxisKey → String) (keys : List AxisKey) (probe : AxisKey)
    (t : AliasTable) : (t.setKeys (keys.map fun key => (key, name key))).aliasOf? probe
      = if probe ∈ keys then some (name probe) else t.aliasOf? probe := by
  induction keys generalizing t with
  | nil => rfl
  | cons key rest ih =>
    rw [List.map_cons, setKeys_cons, ih, aliasOf?_setKey]
    by_cases here : probe = key
    · simp [here]
    · simp [here]

/-- Axes without names of their own are registered under derived aliases that are all different. -/
theorem register_nameless {axes : List Axis} {keys : List AxisKey}
    (those : axes.map Axis.key = keys) (nameless : ∀ axis ∈ axes, Nameless axis)
    (different : (keys.map fun key => ".".intercalate (key.derivedRun keys)).Nodup) :
    AliasTable.empty.register axes
      = .ok (AliasTable.empty.setKeys
            (keys.map fun key => (key, ".".intercalate (key.derivedRun keys))),
          axes.map fun axis =>
            (".".intercalate (axis.key.derivedRun keys), .mapping axis.declaration)) := by
  have anonymous : keys.filter (fun key => (AliasTable.empty.aliasOf? key).isNone) = keys :=
    List.filter_eq_self.mpr fun _ _ => rfl
  have claims : claimDerived (AxisKey.trieOf keys) keys AliasTable.empty.owners
      = .ok (keys.map fun key => (key, ".".intercalate (key.derivedRun keys))) :=
    claimDerived_eq_ok different fun _ _ => rfl
  have listed : declarations axes (AliasTable.empty.setKeys
      (keys.map fun key => (key, ".".intercalate (key.derivedRun keys))))
        = axes.map fun axis =>
            (".".intercalate (axis.key.derivedRun keys), .mapping axis.declaration) := by
    have shown : ∀ axis ∈ axes, (AliasTable.empty.setKeys
        (keys.map fun key => (key, ".".intercalate (key.derivedRun keys)))).aliasOf? axis.key
          = some (".".intercalate (axis.key.derivedRun keys)) := by
      intro axis member
      rw [aliasOf?_setKeys fun key => ".".intercalate (key.derivedRun keys),
        if_pos (those ▸ List.mem_map_of_mem member)]
    rw [declarations, List.map_congr_left fun axis member => by rw [shown axis member],
      Mapping.ofEntries_eq]
    · rfl
    · simpa [Mapping.keys, Function.comp_def, ← those] using different
  rw [register, registerDeclared_nameless nameless]
  dsimp only [bind, Except.bind]
  rw [those, anonymous, claims]
  dsimp only
  rw [listed]
  rfl

/-- Derived aliases never clash by themselves. Axes without names of their own, whose tokens have
no dots, can always be registered in a new table. Each gets the dotted form of the shortest run that
ends no other key, or of its whole key, and is listed under it as it was declared. -/
theorem register_derived (axes : List Axis) (different : (axes.map Axis.key).Nodup)
    (nameless : ∀ axis ∈ axes, Nameless axis)
    (dotless : ∀ axis ∈ axes, ∀ token ∈ axis.key.tokensFromRight, '.' ∉ token.toList) :
    ∃ t : AliasTable, ∃ run : AxisKey → List String,
      AliasTable.empty.register axes
          = .ok (t, axes.map fun axis => (".".intercalate (run axis.key), .mapping axis.declaration)) ∧
        ∀ axis ∈ axes, axis.key.ShortestRun (axes.map Axis.key) (run axis.key) ∧
          t.aliasOf? axis.key = some (".".intercalate (run axis.key)) := by
  have names := AxisKey.nodup_dotted different (List.forall_mem_map.mpr dotless)
  refine ⟨_, _, register_nameless rfl nameless names, fun axis member => ?_⟩
  have key : axis.key ∈ axes.map Axis.key := List.mem_map_of_mem member
  refine ⟨AxisKey.shortestRun_derivedRun different key, ?_⟩
  rw [aliasOf?_setKeys fun key => ".".intercalate (key.derivedRun (axes.map Axis.key)), if_pos key]

section Nested

/-- The first two axes end alike, and the third one ends both. -/
def nestedAxes : List Axis :=
  [⟨⟨"model__SEP__head__SEP__rate"⟩, [("values", .list [.int 1])]⟩,
    ⟨⟨"tail__SEP__rate"⟩, [("values", .list [.int 2])]⟩, ⟨⟨"rate"⟩, [("min", .int 0)]⟩]

theorem register_derived_nested : (nestedAxes.map Axis.key).Nodup ∧
    (∀ axis ∈ nestedAxes, Nameless axis) ∧
    (∀ axis ∈ nestedAxes, ∀ token ∈ axis.key.tokensFromRight, '.' ∉ token.toList) ∧
    ∃ t : AliasTable, ∃ run : AxisKey → List String,
      AliasTable.empty.register nestedAxes = .ok (t, nestedAxes.map fun axis =>
          (".".intercalate (run axis.key), .mapping axis.declaration)) ∧
        ∀ axis ∈ nestedAxes, axis.key.ShortestRun (nestedAxes.map Axis.key) (run axis.key) ∧
          t.aliasOf? axis.key = some (".".intercalate (run axis.key)) := by
  have different : (nestedAxes.map Axis.key).Nodup := by decide
  have nameless : ∀ axis ∈ nestedAxes, Nameless axis := by decide
  have dotless : ∀ axis ∈ nestedAxes, ∀ token ∈ axis.key.tokensFromRight, '.' ∉ token.toList := by
    decide
  exact ⟨different, nameless, dotless, register_derived nestedAxes different nameless dotless⟩

-- the whole key is the alias of the axis that ends both others
example : Except.toOption ((AliasTable.empty.register nestedAxes).map fun r => Mapping.keys r.2)
    = some ["head.rate", "tail.rate", "rate"] := by
  with_unfolding_all rfl

end Nested

end AliasTable

end ConfigSweep
