import ConfigSweep.Proofs.IndexedPatch
import ConfigSweep.Proofs.NestedPatch

/-!
# What is read below the nodes of a tree

A mapping is read entry by entry, and what its patch does below a key is what the value under that
key is read as. Keys that lead from patch to patch lead in the same way to the upserts that a
directive in the tree stands for: `Tree.upsertsAt?` follows them in the tree, `Patch.upsertsAt?` in
the patch.
-/

namespace ConfigSweep

/-- The last entry whose key stands for a position. -/
def Mapping.lastAt? {α : Type} (position : Nat) : Mapping α → Option (String × α)
  | [] => none
  | e :: rest =>
    (lastAt? position rest).or (if Position.ofToken? e.1 = some position then some e else none)

section LastAt

variable {α β : Type}

theorem SparseList.lastWritten?_writesOf (m : Mapping α) (position : Nat) :
    lastWritten? position (writesOf m) = (Mapping.lastAt? position m).map Prod.snd := by
  induction m with
  | nil => rfl
  | cons e rest ih =>
    rw [Mapping.lastAt?, Option.map_or, ← ih]
    cases token : Position.ofToken? e.1 with
    | none =>
      have skips : writesOf (e :: rest) = writesOf rest := List.filterMap_cons_none (by rw [token]; rfl)
      rw [skips, if_neg nofun, Option.map_none, Option.or_none]
    | some own =>
      have writes : writesOf (e :: rest) = (own, e.2) :: writesOf rest :=
        List.filterMap_cons_some (by rw [token]; rfl)
      rw [writes, lastWritten?_cons]
      by_cases here : own = position
      · rw [if_pos here, if_pos (congrArg some here), Option.map_some]
      · rw [if_neg here, if_neg fun same => here (Option.some.inj same), Option.map_none]

/-- The last of the keys for a position counts. -/
theorem SparseList.at?_ofEntries (m : Mapping α) (position : Nat) :
    (ofEntries m).at? position = (Mapping.lastAt? position m).map Prod.snd := by
  rw [ofEntries_eq, at?_ofWrites, lastWritten?_writesOf]

/-- The last entries for a position are related when all entries are. -/
theorem Mapping.rel_lastAt? {relation : String × α → String × β → Prop}
    (names : ∀ d e, relation d e → d.1 = e.1) {m : Mapping α} {n : Mapping β}
    (related : List.Forall₂ relation m n) (position : Nat) :
    Option.Rel relation (lastAt? position m) (lastAt? position n) := by
  induction related with
  | nil => exact .none
  | @cons d e m n first rest ih =>
    rw [lastAt?, lastAt?, names d e first]
    generalize lastAt? position m = a at ih ⊢
    generalize lastAt? position n = b at ih ⊢
    cases ih with
    | some later => exact .some later
    | none =>
      rw [Option.none_or, Option.none_or]
      split
      · exact .some first
      · exact .none

end LastAt

namespace Patch

section Parts

variable {trail : Trail} {entries : List (String × Tree)} {parts : List Part}

theorem keys_plain_sublist (read : PartsFrom trail entries parts) :
    (Mapping.keys (parts.filterMap Part.plain?)).Sublist (Mapping.keys entries) := by
  induction read with
  | nil => simp
  | @cons e part entries parts first rest ih =>
    cases first with
    | group => exact ih.cons e.1
    | upserts => exact ih.cons e.1
    | plain => exact ih.cons_cons e.1

theorem keys_group_sublist (read : PartsFrom trail entries parts) :
    (Mapping.keys (parts.filterMap Part.group?)).Sublist (Mapping.keys entries) := by
  induction read with
  | nil => simp
  | @cons e part entries parts first rest ih =>
    cases first with
    | group => exact ih.cons_cons e.1
    | upserts => exact ih.cons e.1
    | plain => exact ih.cons e.1

/-- A plain entry is found among the entries of the payload. -/
theorem plain_ofParts (unique : (Mapping.keys entries).Nodup) (read : PartsFrom trail entries parts)
    {key : String} {t : Tree} (member : (key, t) ∈ entries) (single : Keyword.isGroup key = false)
    (plain : key ≠ Keyword.upsert) :
    ∃ p, ofTreeAt t (trail.child key) = .ok p ∧ Mapping.get? key (ofParts parts).entries = some p := by
  obtain ⟨part, inside, first⟩ := exists_right read _ member
  cases first with
  | group p named => simp [single] at named
  | upserts us named => exact absurd named plain
  | plain p _ _ reads =>
    refine ⟨p, reads, Mapping.get?_of_mem (unique.sublist (keys_plain_sublist read)) ?_⟩
    exact List.mem_filterMap.mpr ⟨_, inside, rfl⟩

/-- A group is found among the groups of the payload. -/
theorem group_ofParts (unique : (Mapping.keys entries).Nodup) (read : PartsFrom trail entries parts)
    {key : String} {t : Tree} (member : (key, t) ∈ entries) (group : Keyword.isGroup key = true) :
    ∃ p, ofTreeAt t (trail.child key) = .ok p ∧ Mapping.get? key (ofParts parts).groups = some p := by
  obtain ⟨part, inside, first⟩ := exists_right read _ member
  have groups := unique.sublist (keys_group_sublist read)
  have sorted : (ofParts parts).groups.Perm (parts.filterMap Part.group?) := List.mergeSort_perm _ _
  cases first with
  | group p _ reads =>
    refine ⟨p, reads, ?_⟩
    rw [Mapping.get?_perm ((Mapping.keys_perm sorted).nodup_iff.mpr groups) sorted]
    exact Mapping.get?_of_mem groups (List.mem_filterMap.mpr ⟨_, inside, rfl⟩)
  | upserts us named =>
    dsimp only at named
    rw [named] at group
    exact absurd group (by decide)
  | plain p single => simp [single] at group

/-- All parts of upserts come from the entry of the directive. -/
theorem eq_of_mem_upserts {part : Part} {us : List (Option String × Patch)}
    (unique : (Mapping.keys entries).Nodup) (read : PartsFrom trail entries parts)
    (member : part ∈ parts) (shape : part.upserts? = some us) {t : Tree}
    (directive : (Keyword.upsert, t) ∈ entries) :
    upsertsOf t (trail.child Keyword.upsert) = .ok us := by
  obtain ⟨e, among, from'⟩ := exists_left read part member
  cases from' with
  | group => cases shape
  | plain => cases shape
  | upserts vs named reads =>
    obtain rfl := Option.some.inj shape
    have same : e = (Keyword.upsert, t) := List.inj_on_of_nodup_map unique among directive named
    rwa [same] at reads

/-- The upserts of the payload are those of the only directive. -/
theorem upserts_ofParts (unique : (Mapping.keys entries).Nodup)
    (read : PartsFrom trail entries parts) {t : Tree} (member : (Keyword.upsert, t) ∈ entries) :
    upsertsOf t (trail.child Keyword.upsert) = .ok (ofParts parts).upserts := by
  obtain ⟨part, inside, first⟩ := exists_right read _ member
  have single : Keyword.isGroup Keyword.upsert = false := by decide
  cases first with
  | group p named => simp [single] at named
  | plain p _ named => exact absurd rfl named
  | upserts us _ reads =>
    have found : us ∈ parts.filterMap Part.upserts? := List.mem_filterMap.mpr ⟨_, inside, rfl⟩
    unfold ofParts
    dsimp only
    cases last : (parts.filterMap Part.upserts?).getLast? with
    | none =>
      rw [List.getLast?_eq_none_iff.mp last] at found
      cases found
    | some other =>
      obtain ⟨part, listed, shape⟩ := List.mem_filterMap.mp (List.mem_of_getLast? last)
      exact eq_of_mem_upserts unique read listed shape member

/-- Every patch of the payload is read of an entry, as a node or among its upserts. -/
theorem mem_patches_ofParts (read : PartsFrom trail entries parts) {c : Patch}
    (member : c ∈ (ofParts parts).patches) : ∃ e ∈ entries,
      ofTreeAt e.2 (trail.child e.1) = .ok c ∨
      ∃ us, upsertsOf e.2 (trail.child e.1) = .ok us ∧ ∃ u ∈ us, u.2 = c := by
  rcases KeyedPatch.mem_patches.mp member with ⟨e, inside, rfl⟩ | ⟨e, inside, rfl⟩ | ⟨u, inside, rfl⟩
  · obtain ⟨part, listed, shape⟩ := List.mem_filterMap.mp inside
    obtain ⟨d, among, from'⟩ := exists_left read part listed
    cases from' with
    | plain p _ _ reads =>
      obtain rfl := Option.some.inj shape
      exact ⟨d, among, .inl reads⟩
    | _ => cases shape
  · obtain ⟨part, listed, shape⟩ := List.mem_filterMap.mp (List.mem_mergeSort.mp inside)
    obtain ⟨d, among, from'⟩ := exists_left read part listed
    cases from' with
    | group p _ reads =>
      obtain rfl := Option.some.inj shape
      exact ⟨d, among, .inl reads⟩
    | _ => cases shape
  · unfold ofParts at inside
    dsimp only at inside
    cases last : (parts.filterMap Part.upserts?).getLast? with
    | none => rw [last] at inside; cases inside
    | some us =>
      rw [last] at inside
      obtain ⟨part, listed, shape⟩ := List.mem_filterMap.mp (List.mem_of_getLast? last)
      obtain ⟨d, among, from'⟩ := exists_left read part listed
      cases from' with
      | upserts vs _ reads =>
        obtain rfl := Option.some.inj shape
        exact ⟨d, among, .inr ⟨_, reads, u, inside, rfl⟩⟩
      | _ => cases shape

end Parts

/-- At a position there is the patch that the last of its keys is read as. -/
theorem NamedFrom.at? {below : String → Trail} {entries : List (String × Tree)}
    {named : List (String × Patch)} (read : NamedFrom below entries named) {position : Nat}
    {e : String × Tree} (last : Mapping.lastAt? position entries = some e) :
    ∃ p, ofTreeAt e.2 (below e.1) = .ok p ∧ (SparseList.ofEntries named).at? position = some p := by
  have both := Mapping.rel_lastAt? (fun _ _ both => both.1) read position
  rw [last] at both
  generalize found : Mapping.lastAt? position named = there at both
  cases both with
  | some here => exact ⟨_, here.2, by rw [SparseList.at?_ofEntries, found, Option.map_some]⟩

section Upserts

variable {trail : Trail} {entries : List (String × Tree)}

/-- The upserts that have keys. -/
def keyedUpserts (upserts : List (Option String × Patch)) : Mapping Patch :=
  upserts.filterMap fun u => u.1.map fun key => (key, u.2)

/-- Ordering upserts loses and adds none. -/
theorem keyedUpserts_perm (named : Mapping Patch) : (keyedUpserts (orderUpserts named)).Perm named := by
  have kept : ∀ m : Mapping Patch, keyedUpserts (m.map fun e => (some e.1, e.2)) = m := by
    intro m
    simp [keyedUpserts, List.filterMap_map]
  unfold orderUpserts
  rw [kept]
  split
  · exact List.mergeSort_perm _ _
  · exact List.Perm.refl _

theorem mem_orderUpserts {named : Mapping Patch} {u : Option String × Patch}
    (member : u ∈ orderUpserts named) : ∃ e ∈ named, u = (some e.1, e.2) := by
  unfold orderUpserts at member
  obtain ⟨e, inside, rfl⟩ := List.mem_map.mp member
  refine ⟨e, ?_, rfl⟩
  split at inside
  · exact List.mem_mergeSort.mp inside
  · exact inside

end Upserts

end Patch

section Following

namespace Patch

/-- The payload of a patch that has one. -/
def payload? : Patch → Option (KeyedPatch Patch)
  | .edits _ payload => some payload
  | .keyed payload => some payload
  | _ => none

/-- What a patch does below a key, upserts apart. -/
def below? (key : String) (p : Patch) : Option Patch :=
  match p with
  | .sparse slots => (Position.ofToken? key).bind slots.at?
  | _ => p.payload?.bind fun payload =>
      Mapping.get? key (if Keyword.isGroup key then payload.groups else payload.entries)

mutual

/-- The upserts of the patch that the keys lead to. -/
def upsertsAt? : List String → Patch → Option (List (Option String × Patch))
  | [], p => p.payload?.map KeyedPatch.upserts
  | key :: rest, p =>
    if key = Keyword.upsert then p.payload?.bind fun payload => upsertsAmong? rest payload.upserts
    else (p.below? key).bind (upsertsAt? rest)

def upsertsAmong? : List String → List (Option String × Patch) →
    Option (List (Option String × Patch))
  | [], _ => none
  | key :: rest, upserts => (Mapping.get? key (keyedUpserts upserts)).bind (upsertsAt? rest)

end

end Patch

namespace Tree

/-- The value under a key that is read as part of the patch that the tree stands for. A script is
no patch, and of two keys for one position only the later is read. -/
def read? (key : String) : Tree → Option Tree
  | .mapping entries =>
    match Patch.reading entries with
    | .keyed => Mapping.get? key entries
    | .script _ => if key = Keyword.operations then none else Mapping.get? key entries
    | .sparse => ((Position.ofToken? key).bind fun position => Mapping.lastAt? position entries).bind
        fun e => if e.1 = key then some e.2 else none
    | _ => none
  | _ => none

mutual

/-- The upsert directive of the node that the keys lead to through nodes that are read as
patches. -/
def upsertsAt? : List String → Tree → Option Tree
  | [], t => t.read? Keyword.upsert
  | key :: rest, t =>
    if key = Keyword.upsert then (t.read? key).bind (upsertsAmong? rest)
    else (t.read? key).bind (upsertsAt? rest)

def upsertsAmong? : List String → Tree → Option Tree
  | [], _ => none
  | key :: rest, t => (t.field? key).bind (upsertsAt? rest)

end

end Tree

namespace Patch

theorem mem_of_lastAt? {position : Nat} {entries : Mapping Tree} {e : String × Tree}
    (last : Mapping.lastAt? position entries = some e) : e ∈ entries := by
  induction entries with
  | nil => cases last
  | cons d rest ih =>
    rw [Mapping.lastAt?] at last
    cases behind : Mapping.lastAt? position rest with
    | some other =>
      rw [behind, Option.some_or] at last
      obtain rfl := Option.some.inj last
      exact List.mem_cons_of_mem _ (ih behind)
    | none =>
      rw [behind, Option.none_or] at last
      split at last
      · obtain rfl := Option.some.inj last
        exact List.mem_cons_self
      · cases last

section Steps

variable {trail : Trail} {entries : Mapping Tree} {p : Patch} {t : Tree}

/-- What is read under a key is a part of a payload or stands at a position. -/
theorem read_cases (unique : (Mapping.keys entries).Nodup)
    (done : ofTreeAt (.mapping entries) trail = .ok p) {key : String}
    (here : (Tree.mapping entries).read? key = some t) :
    (∃ authored parts, PartsFrom trail authored parts ∧ (Mapping.keys authored).Nodup ∧
      (key, t) ∈ authored ∧
        (p = .keyed (ofParts parts) ∨ ∃ script, p = .edits script (ofParts parts))) ∨
    (∃ slots position, p = .sparse slots ∧ Position.ofToken? key = some position ∧
      ∃ q, ofTreeAt t (slotTrail trail key) = .ok q ∧ slots.at? position = some q) := by
  dsimp only [Tree.read?] at here
  cases ofTreeAt_iff.mp done with
  | scalar leaf => cases leaf
  | fromRoot kind => rw [kind] at here; cases here
  | @keyed _ parts kind read =>
    rw [kind] at here
    exact .inl ⟨entries, parts, read, unique, Mapping.mem_of_get? here, .inl rfl⟩
  | @edits _ operations script parts kind scripted read =>
    rw [kind] at here
    dsimp only at here
    split at here
    · cases here
    · next plain =>
      refine .inl ⟨_, parts, read, Mapping.nodup_keys_remove unique, ?_, .inr ⟨script, rfl⟩⟩
      apply Mapping.mem_of_get?
      rw [Mapping.get?_remove unique, if_neg plain]
      exact here
  | @sparse _ named kind read =>
    rw [kind] at here
    obtain ⟨e, last, same⟩ := Option.bind_eq_some_iff.mp here
    obtain ⟨position, token, last⟩ := Option.bind_eq_some_iff.mp last
    split at same
    · next name =>
      obtain rfl := Option.some.inj same
      exact .inr ⟨_, position, rfl, token, name ▸ read.at? last⟩
    · cases same

/-- Below a key the patch does what the value under the key is read as. -/
theorem below_of_read (unique : (Mapping.keys entries).Nodup)
    (done : ofTreeAt (.mapping entries) trail = .ok p) {key : String} (plain : key ≠ Keyword.upsert)
    (here : (Tree.mapping entries).read? key = some t) :
    ∃ q trail', p.below? key = some q ∧ ofTreeAt t trail' = .ok q := by
  obtain ⟨authored, parts, read, once, member, shape⟩ | ⟨slots, position, rfl, token, q, reads, found⟩ :=
    read_cases unique done here
  · have below : p.below? key = Mapping.get? key
        (if Keyword.isGroup key then (ofParts parts).groups else (ofParts parts).entries) := by
      rcases shape with rfl | ⟨script, rfl⟩ <;> rfl
    rw [below]
    cases group : Keyword.isGroup key with
    | true =>
      obtain ⟨q, reads, found⟩ := group_ofParts once read member group
      exact ⟨q, _, found, reads⟩
    | false =>
      obtain ⟨q, reads, found⟩ := plain_ofParts once read member group plain
      exact ⟨q, _, found, reads⟩
  · refine ⟨q, _, ?_, reads⟩
    rw [below?, token]
    exact found

/-- The upserts of the patch are what the directive of the tree is read as. -/
theorem upserts_of_read (unique : (Mapping.keys entries).Nodup)
    (done : ofTreeAt (.mapping entries) trail = .ok p)
    (here : (Tree.mapping entries).read? Keyword.upsert = some t) :
    ∃ payload trail', p.payload? = some payload ∧ upsertsOf t trail' = .ok payload.upserts := by
  obtain ⟨authored, parts, read, once, member, shape⟩ | ⟨slots, position, rfl, token, -⟩ :=
    read_cases unique done here
  · refine ⟨ofParts parts, _, ?_, upserts_ofParts once read member⟩
    rcases shape with rfl | ⟨script, rfl⟩ <;> rfl
  · have noToken : Position.ofToken? Keyword.upsert = none := by decide
    rw [noToken] at token
    cases token

/-- Each upsert with a key is what the value under the key is read as. -/
theorem upsert_of_field (unique : (Mapping.keys entries).Nodup)
    {upserts : List (Option String × Patch)}
    (done : upsertsOf (.mapping entries) trail = .ok upserts) {key : String}
    (here : (Tree.mapping entries).field? key = some t) :
    ∃ q trail', Mapping.get? key (keyedUpserts upserts) = some q ∧ ofTreeAt t trail' = .ok q := by
  cases upsertsOf_iff.mp done with
  | @named _ named read =>
    obtain ⟨⟨key', q⟩, inside, same, reads⟩ := exists_right read (key, t) (Mapping.mem_of_get? here)
    obtain rfl : key = key' := same
    have perm := keyedUpserts_perm named
    rw [read.keys] at unique
    refine ⟨q, _, ?_, reads⟩
    rw [Mapping.get?_perm ((Mapping.keys_perm perm).nodup_iff.mpr unique) perm]
    exact Mapping.get?_of_mem unique inside

end Steps

end Patch

end Following

end ConfigSweep
