import ConfigSweep.Proofs.ReadsLike

/-!
# Mappings in another order

When some keys of a mapping change places, it is still read like before if the keys stand for
different places of a list, and if no call on the root could tell in which order the values under
them are merged.
-/

namespace ConfigSweep

/-- The key patches the value under it: it names no group and no directive. -/
abbrev Keyword.IsPlain (key : String) : Prop :=
  isGroup key = false ∧ key ≠ upsert ∧ key ≠ operations

section Lists

variable {α κ : Type}

theorem eq_of_perm_short {xs ys : List α} (moved : xs.Perm ys) (short : xs.length ≤ 1) : xs = ys := by
  match xs with
  | [] => exact (List.nil_perm.mp moved).symm
  | [a] => exact List.singleton_perm.mp moved
  | _ :: _ :: _ => simp at short

theorem exists_other {xs : List α} (unique : xs.Nodup) (long : ¬ xs.length ≤ 1) (a : α) :
    ∃ b ∈ xs, b ≠ a := by
  match xs with
  | [] => simp at long
  | [_] => simp at long
  | b :: c :: rest =>
    have apart : b ≠ c := fun same => (List.nodup_cons.mp unique).1 (same ▸ List.mem_cons_self)
    by_cases here : b = a
    · exact ⟨c, by simp, fun same => apart (here.trans same.symm)⟩
    · exact ⟨b, by simp, here⟩

theorem exists_two {xs : List α} (unique : xs.Nodup) (long : ¬ xs.length ≤ 1) :
    ∃ a ∈ xs, ∃ b ∈ xs, a ≠ b := by
  obtain ⟨a, member⟩ := List.exists_mem_of_length_pos (by omega : 0 < xs.length)
  obtain ⟨b, other, apart⟩ := exists_other unique long a
  exact ⟨a, member, b, other, apart.symm⟩

/-- Of items that are told apart by a class, at most one is in each class, in any order. -/
theorem filter_eq_of_perm [DecidableEq κ] (f : α → κ) {xs ys : List α} (moved : xs.Perm ys)
    (apart : (xs.map f).Nodup) (c : κ) :
    (xs.filter fun a => f a = c) = ys.filter fun a => f a = c := by
  refine eq_of_perm_short (moved.filter _) ?_
  by_contra long
  have once : ((xs.filter fun a => f a = c).map f).Nodup := apart.sublist (List.filter_sublist.map f)
  have same : ∀ b ∈ (xs.filter fun a => f a = c).map f, b = c := by
    intro b member
    obtain ⟨a, inside, rfl⟩ := List.mem_map.mp member
    simpa using (List.mem_filter.mp inside).2
  obtain ⟨b, member, other⟩ := exists_other once (by simpa using long) c
  exact other (same b member)

theorem exists_append_of_forall₂ {β : Type} {relation : α → β → Prop} {as as' : List α} {bs : List β}
    (related : List.Forall₂ relation (as ++ as') bs) :
    ∃ front back, bs = front ++ back ∧ List.Forall₂ relation as front ∧
      List.Forall₂ relation as' back := by
  induction as generalizing bs with
  | nil => exact ⟨[], bs, rfl, .nil, related⟩
  | cons a rest ih =>
    cases related with
    | cons first later =>
      obtain ⟨front, back, rfl, left, right⟩ := ih later
      exact ⟨_ :: front, back, rfl, .cons first left, right⟩

end Lists

namespace Patch

variable {evaluator : Evaluator}

section Parts

/-- Sorting groups by distinct keys forgets their order. -/
theorem mergeSort_keys_of_perm {m n : Mapping Patch} (moved : m.Perm n)
    (unique : (Mapping.keys m).Nodup) :
    (m.mergeSort fun a b => a.1 ≤ b.1) = n.mergeSort fun a b => a.1 ≤ b.1 := by
  have perm := (List.mergeSort_perm m fun a b => a.1 ≤ b.1).trans
    (moved.trans (List.mergeSort_perm n fun a b => a.1 ≤ b.1).symm)
  refine perm.eq_of_pairwise ?_ (ascending_mergeSort Prod.fst m) (ascending_mergeSort Prod.fst n)
  intro a b first second below above
  exact List.inj_on_of_nodup_map unique (List.mem_mergeSort.mp first)
    (moved.mem_iff.mpr (List.mem_mergeSort.mp second)) (String.le_antisymm below above)

/-- Parts that change places are merged alike when at most one of them patches a value below, or
when all such patches are local and stand apart. -/
theorem ofParts_perm (unordered : evaluator.Unordered) {front middle back : List Part}
    (moved : front.Perm middle)
    (groups : (Mapping.keys ((front ++ back).filterMap Part.group?)).Nodup)
    (single : ((front ++ back).filterMap Part.upserts?).length ≤ 1)
    (calm : (front.filterMap Part.plain?).length ≤ 1 ∨
      ((front.filterMap Part.plain?).map fun e => Step.ofToken e.1).Nodup ∧
        ∀ e ∈ front.filterMap Part.plain?, e.2.Local evaluator) :
    (ofParts (front ++ back)).Follows evaluator (ofParts (middle ++ back)) := by
  have whole : (front ++ back).Perm (middle ++ back) := moved.append_right back
  have plain := moved.filterMap Part.plain?
  have sameGroups : (ofParts (front ++ back)).groups = (ofParts (middle ++ back)).groups :=
    mergeSort_keys_of_perm (whole.filterMap _) groups
  have sameUpserts : (ofParts (front ++ back)).upserts = (ofParts (middle ++ back)).upserts := by
    unfold ofParts
    rw [eq_of_perm_short (whole.filterMap _) single]
  have empty : (ofParts (front ++ back)).entries.isEmpty = (ofParts (middle ++ back)).entries.isEmpty :=
    (whole.filterMap Part.plain?).isEmpty_eq
  have valued : ∀ focus {root root' : Tree}, root.SameView root' →
      (Merge.values evaluator (ofParts (front ++ back)).entries focus root).Follows Tree.SameView
        (Merge.values evaluator (ofParts (middle ++ back)).entries focus root') := by
    intro focus root root' same
    unfold ofParts
    dsimp only
    rw [List.filterMap_append, List.filterMap_append]
    rcases calm with short | ⟨apart, locals⟩
    · rw [eq_of_perm_short plain short]
      exact Merge.values_follows (follows_named unordered _) focus same
    · exact Merge.values_perm unordered plain _ apart locals focus same
  generalize ofParts (front ++ back) = first at *
  generalize ofParts (middle ++ back) = second at *
  obtain ⟨entries, groups, upserts⟩ := first
  obtain ⟨entries', groups', upserts'⟩ := second
  dsimp only at *
  intro focus root root' same
  rw [Merge.keyed, Merge.keyed, empty, sameGroups, sameUpserts]
  exact (Merge.openMapping_follows same focus _).bind fun _ _ opened =>
    (valued focus opened).bind fun _ _ valued =>
      (Merge.revisits_follows (follows_named unordered _) focus valued).bind fun _ _ grouped =>
        Merge.ordered_follows (follows_upserts unordered _) 0 focus grouped

end Parts

section Entries

variable {front middle back : Mapping Tree} {trail : Trail}

/-- Among the entries, those that patch values below stand apart and ask for no call. -/
def CalmEntries (front : Mapping Tree) : Prop :=
  ∀ d ∈ front, ∀ e ∈ front, d.1 ≠ e.1 → Keyword.isGroup d.1 = false → d.1 ≠ Keyword.upsert →
    Keyword.isGroup e.1 = false → e.1 ≠ Keyword.upsert →
      Step.ofToken d.1 ≠ Step.ofToken e.1 ∧ d.2.CallFree

theorem PartFrom.plain_entry {e : String × Tree} {part : Part} (from' : PartFrom trail e part)
    {n : String × Patch} (shape : part.plain? = some n) :
    e.1 = n.1 ∧ Keyword.isGroup e.1 = false ∧ e.1 ≠ Keyword.upsert ∧
      ofTreeAt e.2 (trail.child e.1) = .ok n.2 := by
  cases from' with
  | plain p single named reads =>
    obtain rfl := Option.some.inj shape
    exact ⟨rfl, single, named, reads⟩
  | _ => cases shape

/-- There is one directive of upserts at most. -/
theorem upserts_length {entries : Mapping Tree} {parts : List Part}
    (unique : (Mapping.keys entries).Nodup) (read : PartsFrom trail entries parts) :
    (parts.filterMap Part.upserts?).length ≤ 1 := by
  have counted : (parts.filterMap Part.upserts?).length
      = ((Mapping.keys entries).filter (· == Keyword.upsert)).length := by
    clear unique
    induction read with
    | nil => rfl
    | @cons e part entries parts first rest ih =>
      have single : Keyword.isGroup Keyword.upsert = false := by decide
      rw [Mapping.keys_cons]
      cases first with
      | group p named =>
        have other : e.1 ≠ Keyword.upsert := fun same => by rw [same, single] at named; cases named
        rw [List.filter_cons_of_neg (by simpa using other), ← ih]
        rfl
      | upserts us named =>
        rw [List.filter_cons_of_pos (by simpa using named), List.length_cons, ← ih]
        rfl
      | plain p _ named =>
        rw [List.filter_cons_of_neg (by simpa using named), ← ih]
        rfl
  rw [counted, ← List.count_eq_length_filter]
  exact List.nodup_iff_count_le_one.mp unique Keyword.upsert

/-- The payload of a mapping is merged alike when calm entries change places. -/
theorem keyed_of_perm (unordered : evaluator.Unordered) (moved : front.Perm middle)
    (unique : (Mapping.keys (front ++ back)).Nodup) (calm : CalmEntries front) {parts : List Part}
    (read : PartsFrom trail (front ++ back) parts) :
    ∃ parts', PartsFrom trail (middle ++ back) parts' ∧
      (ofParts parts).Follows evaluator (ofParts parts') := by
  obtain ⟨partsFront, partsBack, rfl, readFront, readBack⟩ := exists_append_of_forall₂ read
  obtain ⟨partsMiddle, readMiddle, movedParts⟩ := List.perm_comp_forall₂ moved.symm readFront
  refine ⟨partsMiddle ++ partsBack, List.rel_append readMiddle readBack, ?_⟩
  refine ofParts_perm unordered movedParts.symm (unique.sublist (keys_group_sublist read))
    (upserts_length unique read) ?_
  rw [Mapping.keys_append, List.nodup_append] at unique
  have plainKeys : (Mapping.keys (partsFront.filterMap Part.plain?)).Nodup :=
    unique.1.sublist (keys_plain_sublist readFront)
  have pairs : ∀ n ∈ partsFront.filterMap Part.plain?, ∀ n' ∈ partsFront.filterMap Part.plain?,
      n ≠ n' → Step.ofToken n.1 ≠ Step.ofToken n'.1 ∧ n.2.Local evaluator := by
    intro n first n' second other
    obtain ⟨part, listed, shape⟩ := List.mem_filterMap.mp first
    obtain ⟨part', listed', shape'⟩ := List.mem_filterMap.mp second
    obtain ⟨d, inside, from'⟩ := exists_left readFront part listed
    obtain ⟨e, inside', from''⟩ := exists_left readFront part' listed'
    obtain ⟨name, single, named, reads⟩ := from'.plain_entry shape
    obtain ⟨name', single', named', -⟩ := from''.plain_entry shape'
    have keys : d.1 ≠ e.1 := by
      rw [name, name']
      exact fun same => other (List.inj_on_of_nodup_map plainKeys first second same)
    obtain ⟨apart, callFree⟩ := calm d inside e inside' keys single named single' named'
    rw [name, name'] at apart
    exact ⟨apart, (callFree_of_ofTreeAt callFree reads).isLocal _⟩
  by_cases short : (partsFront.filterMap Part.plain?).length ≤ 1
  · exact .inl short
  · refine .inr ⟨plainKeys.of_map.map_on fun n first n' second places => ?_, fun n first => ?_⟩
    · by_contra other
      exact (pairs n first n' second other).1 places
    · obtain ⟨n', second, other⟩ := exists_other plainKeys.of_map short n
      exact (pairs n first n' second other.symm).2

end Entries

end Patch

namespace Tree

/-- Two keys of a mapping may trade places: they stand for different places of a list, the order of
upserts does not hang on them, and no call on the root is made below either of them while the other
is merged. The key of a script may trade places only among values that ask for no call, since taking
the script out moves the last entry. -/
structure Interchange (entries : Mapping Tree) (asUpserts : Prop) (k l : String) : Prop where
  apart : Step.ofToken k ≠ Step.ofToken l
  ranked : asUpserts → Mapping.isPositional entries = true
  calm : Mapping.isPositional entries = false → Keyword.IsPlain k → Keyword.IsPlain l →
    ∀ t, Mapping.get? k entries = some t → t.CallFree
  script : k = Keyword.operations → ∀ a ∈ entries, Keyword.IsPlain a.1 → a.2.CallFree ∧
    ∀ b ∈ entries, Keyword.IsPlain b.1 → a.1 ≠ b.1 → Step.ofToken a.1 ≠ Step.ofToken b.1

section Reordered

open Patch

variable {evaluator : Evaluator} {front middle back : Mapping Tree} {asUpserts : Prop}

theorem reading_of_perm {m n : Mapping Tree} (unique : (Mapping.keys m).Nodup) (moved : m.Perm n) :
    reading m = reading n := by
  have keys := Mapping.keys_perm moved
  unfold reading Mapping.has
  rw [Mapping.get?_perm unique moved, Mapping.get?_perm unique moved, Mapping.get?_perm unique moved,
    moved.length_eq, Mapping.isPositional_of_perm keys]

theorem viewEntries_of_perm (moved : front.Perm middle)
    (apart : (front.map fun e => Step.ofToken e.1).Nodup) :
    viewEntries (front ++ back) = viewEntries (middle ++ back) := by
  have apart' : ((viewed front).map fun e => Step.ofToken e.1).Nodup := by
    rw [List.map_map]
    exact apart
  have movedViews : (viewed front).Perm (viewed middle) := moved.map _
  funext place
  have same := filter_eq_of_perm (fun e : String × View => Step.ofToken e.1) movedViews apart' place
  rw [viewEntries_append, viewEntries_append, viewEntries_eq front, viewEntries_eq middle, same]

theorem ofEntries_of_perm {front middle back : Mapping Patch} (moved : front.Perm middle)
    (apart : (front.map fun e => Step.ofToken e.1).Nodup) :
    SparseList.ofEntries (front ++ back) = SparseList.ofEntries (middle ++ back) := by
  refine SparseList.ext_at? (SparseList.ascending_ofEntries _) (SparseList.ascending_ofEntries _)
    fun position => ?_
  have same := filter_eq_of_perm (fun e : String × Patch => Step.ofToken e.1) moved apart
    (.index position)
  rw [SparseList.at?_ofEntries, SparseList.at?_ofEntries, SparseList.lastAt?_eq,
    SparseList.lastAt?_eq, List.filter_append, List.filter_append, same]

theorem places_of_namedFrom {below : String → Trail} {m : Mapping Tree} {named : Mapping Patch}
    (read : NamedFrom below m named) :
    (named.map fun n => Step.ofToken n.1) = m.map fun e => Step.ofToken e.1 := by
  induction read with
  | nil => rfl
  | cons first rest ih => rw [List.map_cons, List.map_cons, ih, first.1]

/-- Entries that trade places are read as patches that trade places. -/
theorem namedFrom_of_perm (moved : front.Perm middle)
    (apart : (front.map fun e => Step.ofToken e.1).Nodup) {below : String → Trail}
    {named : Mapping Patch} (read : NamedFrom below (front ++ back) named) :
    ∃ namedFront namedMiddle namedBack, named = namedFront ++ namedBack ∧
      NamedFrom below (middle ++ back) (namedMiddle ++ namedBack) ∧
      namedFront.Perm namedMiddle ∧ (namedFront.map fun n => Step.ofToken n.1).Nodup := by
  obtain ⟨namedFront, namedBack, rfl, readFront, readBack⟩ := exists_append_of_forall₂ read
  obtain ⟨namedMiddle, readMiddle, movedNamed⟩ := List.perm_comp_forall₂ moved.symm readFront
  refine ⟨namedFront, namedMiddle, namedBack, rfl, List.rel_append readMiddle readBack,
    movedNamed.symm, ?_⟩
  rw [places_of_namedFrom readFront]
  exact apart

theorem orderUpserts_of_perm {front middle back : Mapping Patch} (moved : front.Perm middle)
    (apart : (front.map fun e => Step.ofToken e.1).Nodup)
    (positional : Mapping.isPositional (front ++ back) = true) :
    orderUpserts (front ++ back) = orderUpserts (middle ++ back) := by
  have keys := Mapping.keys_perm (moved.append_right back)
  have positional' : Mapping.isPositional (middle ++ back) = true :=
    (Mapping.isPositional_of_perm keys).symm.trans positional
  have tokens := List.all_eq_true.mp (Bool.and_eq_true _ _ ▸ positional).2
  have places : (front.map fun e => Step.ofToken e.1)
      = (front.map fun e => Position.rank e.1).map Step.index := by
    rw [List.map_map]
    refine List.map_congr_left fun e member => ?_
    obtain ⟨position, token⟩ := Option.isSome_iff_exists.mp (tokens e (List.mem_append_left _ member))
    rw [Step.ofToken_eq_index.mpr token, Function.comp, Position.rank, token, Option.getD_some]
  rw [places] at apart
  unfold orderUpserts
  rw [if_pos positional, if_pos positional']
  refine congrArg (List.map _) ((mergeSort_eq_iff fun e : String × Patch => Position.rank e.1).mpr ?_)
  intro n
  have same := filter_eq_of_perm (fun e : String × Patch => Position.rank e.1) moved apart.of_map n
  rw [List.filter_append, List.filter_append]
  exact congrArg (· ++ _) same

/-- Entries that trade places are calm, the one of a script apart. -/
theorem calmEntries (unique : (Mapping.keys (front ++ back)).Nodup)
    (calm : ∀ k ∈ Mapping.keys front, ∀ l ∈ Mapping.keys front, k ≠ l →
      Interchange (front ++ back) asUpserts k l)
    (kind : Mapping.isPositional (front ++ back) = false)
    (noScript : Keyword.operations ∉ Mapping.keys front) : CalmEntries front := by
  intro d first e second keys single named single' named'
  have names : ∀ a ∈ front, a.1 ≠ Keyword.operations := fun a member same =>
    noScript (same ▸ Mapping.mem_keys_of_mem member)
  have both := calm d.1 (Mapping.mem_keys_of_mem first) e.1 (Mapping.mem_keys_of_mem second) keys
  exact ⟨both.apart, both.calm kind ⟨single, named, names d first⟩ ⟨single', named', names e second⟩
    d.2 (Mapping.get?_of_mem unique (List.mem_append_left back first))⟩

/-- The payload of a script is merged alike when keys of its mapping trade places. -/
theorem script_of_perm (unordered : evaluator.Unordered) (moved : front.Perm middle)
    (unique : (Mapping.keys (front ++ back)).Nodup) (long : ¬ front.length ≤ 1)
    (calm : ∀ k ∈ Mapping.keys front, ∀ l ∈ Mapping.keys front, k ≠ l →
      Interchange (front ++ back) asUpserts k l)
    (kind : Mapping.isPositional (front ++ back) = false) {trail : Trail} {parts : List Part}
    (read : PartsFrom trail (Mapping.remove Keyword.operations (front ++ back)) parts) :
    ∃ parts', PartsFrom trail (Mapping.remove Keyword.operations (middle ++ back)) parts' ∧
      (ofParts parts).Follows evaluator (ofParts parts') := by
  have whole : (front ++ back).Perm (middle ++ back) := moved.append_right back
  by_cases led : Keyword.operations ∈ Mapping.keys front
  · -- taking the script out may move any entry, but all of them are calm
    have once : (Mapping.keys front).Nodup := by
      rw [Mapping.keys_append, List.nodup_append] at unique
      exact unique.1
    obtain ⟨l, second, other⟩ := exists_other once (by rwa [Mapping.keys, List.length_map])
      Keyword.operations
    have free := (calm _ led l second other.symm).script rfl
    have unique' := (Mapping.keys_perm whole).nodup_iff.mp unique
    have removed : (Mapping.remove Keyword.operations (front ++ back)).Perm
        (Mapping.remove Keyword.operations (middle ++ back)) :=
      (Mapping.remove_perm unique).trans
        ((whole.filter _).trans (Mapping.remove_perm unique').symm)
    have kept : ∀ e ∈ Mapping.remove Keyword.operations (front ++ back),
        e ∈ front ++ back ∧ e.1 ≠ Keyword.operations := by
      intro e member
      obtain ⟨inside, away⟩ := List.mem_filter.mp ((Mapping.remove_perm unique).mem_iff.mp member)
      exact ⟨inside, by simpa using away⟩
    have calmRest : CalmEntries (Mapping.remove Keyword.operations (front ++ back)) := by
      intro d first e second keys single named single' named'
      obtain ⟨inside, away⟩ := kept d first
      obtain ⟨inside', away'⟩ := kept e second
      obtain ⟨callFree, apart⟩ := free d inside ⟨single, named, away⟩
      exact ⟨apart e inside' ⟨single', named', away'⟩ keys, callFree⟩
    rw [← List.append_nil (Mapping.remove Keyword.operations (front ++ back))] at read
    rw [← List.append_nil (Mapping.remove Keyword.operations (middle ++ back))]
    refine keyed_of_perm unordered removed ?_ calmRest read
    rw [List.append_nil]
    exact Mapping.nodup_keys_remove unique
  · have led' : Keyword.operations ∉ Mapping.keys middle := fun member =>
      led ((Mapping.keys_perm moved).mem_iff.mpr member)
    have unique' : (Mapping.keys (Mapping.remove Keyword.operations (front ++ back))).Nodup :=
      Mapping.nodup_keys_remove unique
    rw [Mapping.remove_append led] at read unique'
    rw [Mapping.remove_append led']
    exact keyed_of_perm unordered moved unique' (calmEntries unique calm kind led) read

theorem ofTreeAt_of_perm (unordered : evaluator.Unordered) (moved : front.Perm middle)
    (unique : (Mapping.keys (front ++ back)).Nodup) (long : ¬ front.length ≤ 1)
    (calm : ∀ k ∈ Mapping.keys front, ∀ l ∈ Mapping.keys front, k ≠ l →
      Interchange (front ++ back) asUpserts k l)
    (apart : (front.map fun e => Step.ofToken e.1).Nodup) (trail : Trail) :
    (ofTreeAt (.mapping (front ++ back)) trail).Follows (Patch.Follows evaluator)
      (ofTreeAt (.mapping (middle ++ back)) trail) := by
  intro p done
  have kinds := reading_of_perm unique (moved.append_right back)
  cases ofTreeAt_iff.mp done with
  | scalar leaf => cases leaf
  | fromRoot kind read =>
    exact ⟨_, ofTreeAt_iff.mpr (.fromRoot (kinds ▸ kind) read), follows_self unordered _⟩
  | edits kind scripted read =>
    obtain ⟨parts', read', follows⟩ := script_of_perm unordered moved unique long calm
      (isPositional_of_reading_script kind) read
    exact ⟨_, ofTreeAt_iff.mpr (.edits (kinds ▸ kind) scripted read'),
      .edits unordered (List.forall₂_same.mpr fun edit _ => .refl edit) follows⟩
  | sparse kind read =>
    obtain ⟨namedFront, namedMiddle, namedBack, rfl, read', movedNamed, namedApart⟩ :=
      namedFrom_of_perm moved apart read
    refine ⟨_, ofTreeAt_iff.mpr (.sparse (kinds ▸ kind) read'), ?_⟩
    rw [ofEntries_of_perm movedNamed namedApart]
    exact follows_self unordered _
  | keyed kind read =>
    have plain := isPositional_of_reading_keyed kind
    have noScript := absent_of_reading_keyed kind Keyword.operations (by simp)
    have calmFront : CalmEntries front := calmEntries unique calm plain fun member =>
      noScript (by rw [Mapping.keys_append]; exact List.mem_append_left _ member)
    obtain ⟨parts', read', follows⟩ := keyed_of_perm unordered moved unique calmFront read
    exact ⟨_, ofTreeAt_iff.mpr (.keyed (kinds ▸ kind) read'), .keyed follows⟩

theorem upsertsOf_of_perm (unordered : evaluator.Unordered) (moved : front.Perm middle)
    (apart : (front.map fun e => Step.ofToken e.1).Nodup)
    (positional : Mapping.isPositional (front ++ back) = true) (trail : Trail) :
    (upsertsOf (.mapping (front ++ back)) trail).Follows (Patch.Aligned evaluator)
      (upsertsOf (.mapping (middle ++ back)) trail) := by
  intro us done
  cases upsertsOf_iff.mp done with
  | named read =>
    have keys := NamedFrom.keys read
    obtain ⟨namedFront, namedMiddle, namedBack, rfl, read', movedNamed, namedApart⟩ :=
      namedFrom_of_perm moved apart read
    refine ⟨_, upsertsOf_iff.mpr (.named read'), ?_⟩
    rw [Mapping.isPositional_eq, keys, ← Mapping.isPositional_eq] at positional
    rw [← orderUpserts_of_perm movedNamed namedApart positional]
    exact follows_upserts unordered _

/-- A mapping is read alike when keys of it trade places that may. -/
theorem ReadsLike.perm (unordered : evaluator.Unordered) (moved : front.Perm middle)
    (unique : (Mapping.keys (front ++ back)).Nodup)
    (calm : ∀ k ∈ Mapping.keys front, ∀ l ∈ Mapping.keys front, k ≠ l →
      Interchange (front ++ back) asUpserts k l) :
    (Tree.mapping (front ++ back)).ReadsLike evaluator asUpserts (.mapping (middle ++ back)) := by
  by_cases short : front.length ≤ 1
  · rw [eq_of_perm_short moved short]
    exact .refl unordered _
  have once : (Mapping.keys front).Nodup := by
    rw [Mapping.keys_append, List.nodup_append] at unique
    exact unique.1
  have apart : (front.map fun e => Step.ofToken e.1).Nodup := by
    refine once.of_map.map_on fun d first e second places => ?_
    by_contra other
    have keys : d.1 ≠ e.1 := fun same => other (List.inj_on_of_nodup_map once first second same)
    exact (calm d.1 (Mapping.mem_keys_of_mem first) e.1 (Mapping.mem_keys_of_mem second) keys).apart
      places
  constructor
  · exact congrArg View.mapping (viewEntries_of_perm moved apart)
  · exact ofTreeAt_of_perm unordered moved unique short calm apart
  · intro asked
    obtain ⟨k, first, l, second, other⟩ := exists_two once (by rwa [Mapping.keys, List.length_map])
    exact upsertsOf_of_perm unordered moved apart ((calm k first l second other).ranked asked)

end Reordered

end Tree

end ConfigSweep
