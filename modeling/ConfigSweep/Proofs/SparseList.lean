import ConfigSweep.Proofs.AxisKey
import ConfigSweep.SparseList
import Mathlib.Data.List.Dedup
import Mathlib.Data.List.Sort

/-!
# Laws of sparse lists

The slots of a sparse list ascend, and so it is determined by the values at its positions. It is
filled by writes, which tell what it holds: at each position the value that was written there last.
Items under the tokens of their positions are a sparse list without gaps, which lists the items in
their order again.
-/

namespace ConfigSweep

/-- Items under the tokens of their positions, counted from `start`. -/
def Mapping.ofItems {α : Type} (items : List α) (start : Nat) : Mapping α :=
  (items.zipIdx start).map fun e => (Position.token e.2, e.1)

/-- Items at their positions, counted from `start`. -/
def SparseList.slotsOf {α : Type} (items : List α) (start : Nat) : List (Nat × α) :=
  (items.zipIdx start).map Prod.swap

/-- The keys tell whether a mapping is a list in disguise. -/
theorem Mapping.isPositional_eq {α : Type} (m : Mapping α) :
    isPositional m = (!(keys m).isEmpty && (keys m).all Position.isToken) := by
  simp [isPositional, keys, List.all_map, Function.comp_def]

theorem Mapping.isPositional_of_key {α : Type} {m : Mapping α} {key : String}
    (member : key ∈ keys m) (plain : Position.isToken key = false) : isPositional m = false := by
  rw [isPositional_eq, Bool.and_eq_false_iff]
  exact .inr (List.all_eq_false.mpr ⟨key, member, by simp [plain]⟩)

section Items

variable {α β : Type}

theorem Mapping.isPositional_of_perm {m : Mapping α} {n : Mapping β}
    (moved : (keys m).Perm (keys n)) : isPositional m = isPositional n := by
  rw [isPositional_eq, isPositional_eq, moved.all_eq, moved.isEmpty_eq]

theorem Mapping.ofItems_cons (a : α) (items : List α) (start : Nat) :
    ofItems (a :: items) start = (Position.token start, a) :: ofItems items (start + 1) := by
  simp [ofItems]

theorem SparseList.slotsOf_cons (a : α) (items : List α) (start : Nat) :
    slotsOf (a :: items) start = (start, a) :: slotsOf items (start + 1) := by
  simp [slotsOf]

theorem SparseList.positions_slotsOf (items : List α) (start : Nat) :
    (slotsOf items start).map Prod.fst = List.range' start items.length := by
  rw [← List.zipIdx_map_snd, slotsOf, List.map_map]
  rfl

theorem SparseList.pairwise_slotsOf (items : List α) (start : Nat) :
    (slotsOf items start).Pairwise fun a b => a.1 < b.1 := by
  refine List.pairwise_map.mp (?_ : ((slotsOf items start).map Prod.fst).Pairwise (· < ·))
  rw [positions_slotsOf]
  exact List.pairwise_lt_range'

theorem Mapping.isPositional_ofItems {items : List α} {start : Nat} (filled : items ≠ [])
    (fits : start + items.length ≤ Word.bound) : isPositional (ofItems items start) = true := by
  have tokens : ∀ e ∈ ofItems items start, Position.isToken e.1 = true := by
    intro e member
    obtain ⟨⟨a, position⟩, inside, rfl⟩ := List.mem_map.mp member
    have small := (List.mem_zipIdx inside).2.1
    have fits' : position < Word.bound := by omega
    simp [Position.isToken, Position.ofToken?_token fits']
  have nonempty : ofItems items start ≠ [] := by
    simpa [ofItems] using filled
  unfold isPositional
  rw [Bool.and_eq_true]
  exact ⟨by simpa using nonempty, List.all_eq_true.mpr tokens⟩

end Items

namespace SparseList

variable {α β : Type}

section Slots

/-- A slot behind all others goes to the end. -/
theorem setSlot_append {slots : List (Nat × α)} {position : Nat} (value : α)
    (behind : ∀ slot ∈ slots, slot.1 < position) :
    setSlot position value slots = slots ++ [(position, value)] := by
  induction slots with
  | nil => rfl
  | cons slot rest ih =>
    have first := behind slot List.mem_cons_self
    rw [setSlot, if_neg (by omega), if_neg (by omega),
      ih fun s member => behind s (List.mem_cons_of_mem _ member), List.cons_append]

theorem set_append {slots : List (Nat × α)} {position : Nat} (value : α)
    (behind : ∀ slot ∈ slots, slot.1 < position) :
    (⟨slots⟩ : SparseList α).set position value = ⟨slots ++ [(position, value)]⟩ :=
  congrArg SparseList.mk (setSlot_append value behind)

theorem mem_setSlot {position : Nat} {value : α} {slots : List (Nat × α)} {slot : Nat × α}
    (member : slot ∈ setSlot position value slots) : slot = (position, value) ∨ slot ∈ slots := by
  induction slots with
  | nil => exact .inl (List.mem_singleton.mp member)
  | cons first rest ih =>
    unfold setSlot at member
    split at member
    · exact List.mem_cons.mp member
    · split at member
      · exact (List.mem_cons.mp member).imp_right (List.mem_cons_of_mem _)
      · rcases List.mem_cons.mp member with rfl | later
        · exact .inr List.mem_cons_self
        · exact (ih later).imp_right (List.mem_cons_of_mem _)

/-- The value at a position. -/
def at? (position : Nat) (s : SparseList α) : Option α :=
  Option.map Prod.snd (s.slots.find? fun slot => slot.1 == position)

theorem at?_cons (slot : Nat × α) (rest : List (Nat × α)) (position : Nat) :
    (⟨slot :: rest⟩ : SparseList α).at? position
      = if slot.1 = position then some slot.2 else (⟨rest⟩ : SparseList α).at? position := by
  unfold at?
  by_cases here : slot.1 = position
  · simp [here]
  · rw [List.find?_cons_of_neg (by simpa using here), if_neg here]

theorem at?_eq_none {slots : List (Nat × α)} {position : Nat}
    (absent : ∀ slot ∈ slots, slot.1 ≠ position) : (⟨slots⟩ : SparseList α).at? position = none := by
  unfold at?
  rw [List.find?_eq_none.mpr fun slot member => by simpa using absent slot member]
  rfl

theorem at?_set (position probe : Nat) (value : α) (s : SparseList α) :
    (s.set position value).at? probe = if probe = position then some value else s.at? probe := by
  obtain ⟨slots⟩ := s
  unfold set at?
  induction slots with
  | nil =>
    by_cases here : probe = position
    · simp [setSlot, here]
    · simp [setSlot, here, Ne.symm here]
  | cons slot rest ih =>
    obtain ⟨p, v⟩ := slot
    unfold setSlot
    split
    · by_cases here : probe = position
      · simp [here]
      · simp [List.find?_cons, here, Ne.symm here]
    · split
      · next same =>
        by_cases here : probe = position
        · simp [here]
        · simp [here, Ne.symm here, ← same]
      · next away =>
        by_cases atFirst : p = probe
        · have other : probe ≠ position := fun same => away (same ▸ atFirst.symm)
          simp [atFirst, other]
        · simpa [List.find?_cons, atFirst] using ih

theorem at?_slotsOf (items : List α) (start position : Nat) :
    (⟨slotsOf items start⟩ : SparseList α).at? (start + position) = items[position]? := by
  induction items generalizing start position with
  | nil => rfl
  | cons a rest ih =>
    rw [slotsOf_cons, at?_cons]
    cases position with
    | zero => exact if_pos rfl
    | succ position =>
      have later := ih (start + 1) position
      rw [if_neg (by dsimp only; omega), show start + (position + 1) = start + 1 + position by omega,
        later]
      rfl

theorem mem_slots_positions {s : SparseList α} {position : Nat} :
    position ∈ s.slots.map Prod.fst ↔ (s.at? position).isSome = true := by
  unfold at?
  rw [Option.isSome_map, List.find?_isSome, List.mem_map]
  simp

end Slots

section Ascending

/-- The slots are listed by ascending positions. -/
def Ascending (s : SparseList α) : Prop :=
  s.slots.Pairwise fun a b => a.1 < b.1

theorem ascending_set {s : SparseList α} (ascending : s.Ascending) (position : Nat) (value : α) :
    (s.set position value).Ascending := by
  obtain ⟨slots⟩ := s
  unfold Ascending set at *
  dsimp only at *
  induction slots with
  | nil => exact List.pairwise_singleton _ _
  | cons slot rest ih =>
    obtain ⟨p, v⟩ := slot
    rw [List.pairwise_cons] at ascending
    rw [setSlot]
    split
    · next below =>
      refine List.pairwise_cons.mpr ⟨fun other member => ?_, List.pairwise_cons.mpr ascending⟩
      rcases List.mem_cons.mp member with rfl | later
      · exact below
      · have above := ascending.1 other later
        dsimp only at above ⊢
        omega
    · split
      · next same =>
        refine List.pairwise_cons.mpr ⟨fun other member => ?_, ascending.2⟩
        have above := ascending.1 other member
        dsimp only at above ⊢
        omega
      · refine List.pairwise_cons.mpr ⟨fun other member => ?_, ih ascending.2⟩
        rcases mem_setSlot member with rfl | later
        · dsimp only
          omega
        · exact ascending.1 other later

theorem at?_of_mem {slots : List (Nat × α)} (ascending : (⟨slots⟩ : SparseList α).Ascending)
    {slot : Nat × α} (member : slot ∈ slots) :
    (⟨slots⟩ : SparseList α).at? slot.1 = some slot.2 := by
  unfold Ascending at ascending
  induction slots with
  | nil => cases member
  | cons first rest ih =>
    rw [List.pairwise_cons] at ascending
    rw [at?_cons]
    rcases List.mem_cons.mp member with rfl | later
    · rw [if_pos rfl]
    · rw [if_neg (Nat.ne_of_lt (ascending.1 slot later)), ih ascending.2 later]

/-- An ascending sparse list has at each position the value of the only slot there. -/
theorem mem_slots_iff {s : SparseList α} (ascending : s.Ascending) {slot : Nat × α} :
    slot ∈ s.slots ↔ s.at? slot.1 = some slot.2 := by
  constructor
  · exact at?_of_mem ascending
  · intro found
    obtain ⟨other, there, value⟩ := Option.map_eq_some_iff.mp found
    have position : other.1 = slot.1 := by simpa using List.find?_some there
    exact Prod.ext position value ▸ List.mem_of_find?_eq_some there

/-- Ascending sparse lists with the same values at all positions are equal. -/
theorem ext_at? {s s' : SparseList α} (first : s.Ascending) (second : s'.Ascending)
    (same : ∀ position, s.at? position = s'.at? position) : s = s' := by
  have irrefl : Std.Irrefl fun a b : Nat × α => a.1 < b.1 := ⟨fun a => Nat.lt_irrefl a.1⟩
  have antisymm : Std.Antisymm fun a b : Nat × α => a.1 < b.1 :=
    ⟨fun a b below above => absurd below (Nat.lt_asymm above)⟩
  refine congrArg mk (List.Pairwise.eq_of_mem_iff first second fun slot => ?_)
  rw [mem_slots_iff first, mem_slots_iff second, same]

variable {s : SparseList α} (ascending : s.Ascending)

include ascending

theorem nodup_positions : (s.slots.map Prod.fst).Nodup :=
  List.pairwise_map.mpr (List.Pairwise.imp Nat.ne_of_lt ascending)

/-- Different positions have different tokens. -/
theorem nodup_keys_toMapping : (Mapping.keys s.toMapping).Nodup := by
  have keys : Mapping.keys s.toMapping = (s.slots.map Prod.fst).map Position.token := by
    simp [Mapping.keys, toMapping]
  rw [keys]
  exact (nodup_positions ascending).map fun p q same => Position.token_inj same

/-- The last of ascending positions is the highest one. -/
theorem highest?_eq_max? : s.highest? = (s.slots.map Prod.fst).max? := by
  unfold highest?
  cases last : s.slots.getLast? with
  | none =>
    rw [List.getLast?_eq_none_iff.mp last]
    rfl
  | some slot =>
    refine (List.max?_eq_some_iff.mpr ⟨List.mem_map_of_mem (List.mem_of_getLast? last), ?_⟩).symm
    obtain ⟨front, whole⟩ := List.getLast?_eq_some_iff.mp last
    unfold Ascending at ascending
    rw [whole, List.pairwise_append] at ascending
    rw [whole, List.forall_mem_map]
    intro other member
    rcases List.mem_append.mp member with before | own
    · exact Nat.le_of_lt (ascending.2.2 other before slot List.mem_cons_self)
    · rw [List.mem_singleton.mp own]

section Known

variable {positions : List Nat}
  (known : ∀ position, position ∈ s.slots.map Prod.fst ↔ position ∈ positions)

include known

theorem highest?_of_positions : s.highest? = positions.max? := by
  rw [highest?_eq_max? ascending]
  refine Option.ext fun highest => ?_
  simp only [List.max?_eq_some_iff, known]

/-- There is one slot for each position, however often the position is listed. -/
theorem size_of_positions : s.size = positions.dedup.length := by
  have same : (s.slots.map Prod.fst).Perm positions.dedup := by
    rw [List.perm_ext_iff_of_nodup (nodup_positions ascending) (List.nodup_dedup _)]
    intro position
    rw [known, List.mem_dedup]
  rw [← same.length_eq, List.length_map]
  rfl

end Known

/-- The positions of an ascending sparse list without gaps are those below its size. -/
theorem lt_size_of_gapless (gapless : s.checkGapless = .ok ()) : ∀ slot ∈ s.slots, slot.1 < s.size := by
  intro slot member
  have inside : slot.1 ∈ s.slots.map Prod.fst := List.mem_map_of_mem member
  unfold checkGapless at gapless
  rw [highest?_eq_max? ascending] at gapless
  cases highest : (s.slots.map Prod.fst).max? with
  | none =>
    rw [List.max?_eq_none_iff.mp highest] at inside
    cases inside
  | some last =>
    rw [highest] at gapless
    dsimp only at gapless
    split at gapless
    · cases gapless
    · have above := (List.max?_eq_some_iff.mp highest).2 slot.1 inside
      omega

/-- The positions of ascending slots below a number are those at which a value is found, in order. -/
theorem positions_eq_filter {count : Nat} (within : ∀ slot ∈ s.slots, slot.1 < count) :
    s.slots.map Prod.fst = (List.range count).filter fun position => (s.at? position).isSome := by
  have sorted : (s.slots.map Prod.fst).Pairwise (· < ·) := List.pairwise_map.mpr ascending
  have sorted' := List.Pairwise.filter (fun position => (s.at? position).isSome)
    (List.pairwise_lt_range (n := count))
  refine List.Perm.eq_of_pairwise (fun a b _ _ below above => absurd below (Nat.lt_asymm above))
    sorted sorted' ?_
  rw [List.perm_ext_iff_of_nodup (sorted.imp Nat.ne_of_lt) (sorted'.imp Nat.ne_of_lt)]
  intro position
  rw [List.mem_filter, List.mem_range, ← mem_slots_positions]
  refine (and_iff_right_of_imp fun member => ?_).symm
  obtain ⟨slot, inside, rfl⟩ := List.mem_map.mp member
  exact within slot inside

/-- The values of ascending slots are those found at their positions. -/
theorem values_eq_filterMap :
    s.slots.map Prod.snd = (s.slots.map Prod.fst).filterMap (at? · s) := by
  have found : ∀ slot ∈ s.slots, ((at? · s) ∘ Prod.fst) slot = (some ∘ Prod.snd) slot :=
    fun slot member => at?_of_mem ascending member
  rw [List.filterMap_map, List.filterMap_congr found, List.filterMap_eq_map]

/-- The values of ascending slots below a number, read off the positions in turn. -/
theorem values_eq {count : Nat} (within : ∀ slot ∈ s.slots, slot.1 < count) :
    s.slots.map Prod.snd = (List.range count).filterMap (at? · s) := by
  rw [values_eq_filterMap ascending, positions_eq_filter ascending within, List.filterMap_filter]
  refine List.filterMap_congr fun position _ => ?_
  cases s.at? position <;> rfl

end Ascending

section Listing

/-- Whether there are gaps is told by the positions. -/
theorem checkGapless_congr {s : SparseList α} {s' : SparseList β}
    (positions : s.slots.map Prod.fst = s'.slots.map Prod.fst) : s.checkGapless = s'.checkGapless := by
  have highest : s.highest? = s'.highest? := by
    rw [highest?, highest?, ← List.getLast?_map, ← List.getLast?_map, positions]
  have size : s.size = s'.size := by
    have lengths := congrArg List.length positions
    rwa [List.length_map, List.length_map] at lengths
  rw [checkGapless, checkGapless, highest, size]

theorem values_slotsOf (items : List α) (start : Nat) : (slotsOf items start).map Prod.snd = items := by
  simp [slotsOf, Function.comp_def]

/-- An ascending sparse list without gaps has its items at all positions from zero on. -/
theorem slots_eq_slotsOf {s : SparseList α} (ascending : s.Ascending)
    (gapless : s.checkGapless = .ok ()) : s.slots = slotsOf (s.slots.map Prod.snd) 0 := by
  have filtered := positions_eq_filter ascending (lt_size_of_gapless ascending gapless)
  have count := congrArg List.length filtered
  rw [List.length_map] at count
  -- There are as many slots as numbers below the size, so filtering left none of them out.
  have positions : s.slots.map Prod.fst = List.range s.size := by
    rw [filtered]
    refine List.filter_sublist.eq_of_length ?_
    rw [← count, List.length_range]
    rfl
  have listed : (slotsOf (s.slots.map Prod.snd) 0).map Prod.fst = List.range s.size := by
    rw [positions_slotsOf, List.length_map, List.range_eq_range']
    rfl
  calc s.slots = (List.range s.size).zip (s.slots.map Prod.snd) := List.zip_of_prod positions rfl
    _ = slotsOf (s.slots.map Prod.snd) 0 := (List.zip_of_prod listed (values_slotsOf _ 0)).symm

/-- The highest position and the number of slots tell whether there is a gap: distinct numbers below
their count are all of the numbers below it. -/
theorem checkGapless_eq_ok_iff {s : SparseList α} (ascending : s.Ascending) :
    s.checkGapless = .ok () ↔ ∀ position, position ∈ s.slots.map Prod.fst ↔ position < s.size := by
  constructor
  · intro gapless position
    rw [slots_eq_slotsOf ascending gapless, positions_slotsOf, List.length_map, List.mem_range'_1,
      Nat.zero_add]
    exact and_iff_right (Nat.zero_le position)
  · intro covers
    unfold checkGapless highest?
    cases last : s.slots.getLast? with
    | none => rfl
    | some slot =>
      have below := (covers slot.1).mp (List.mem_map_of_mem (List.mem_of_getLast? last))
      exact if_neg (Nat.not_le.mpr below)

theorem toList_eq_ok {s : SparseList α} {items : List α} :
    s.toList = .ok items ↔ s.checkGapless = .ok () ∧ s.slots.map Prod.snd = items := by
  unfold toList
  cases s.checkGapless <;> simp [bind, Except.bind, pure, Except.pure]

theorem toList_slotsOf (items : List α) : (⟨slotsOf items 0⟩ : SparseList α).toList = .ok items := by
  have ascending : (⟨slotsOf items 0⟩ : SparseList α).Ascending := pairwise_slotsOf items 0
  have covers : ∀ position, position ∈ (slotsOf items 0).map Prod.fst
      ↔ position < (slotsOf items 0).length := by
    intro position
    rw [positions_slotsOf, List.mem_range'_1]
    simp [slotsOf]
  exact toList_eq_ok.mpr ⟨(checkGapless_eq_ok_iff ascending).mpr covers, values_slotsOf items 0⟩

/-- An ascending sparse list is listed as the items that it has at the positions. -/
theorem toList_eq_ok_iff {s : SparseList α} (ascending : s.Ascending) {items : List α} :
    s.toList = .ok items ↔ ∀ position, items[position]? = s.at? position := by
  constructor
  · intro lists position
    obtain ⟨gapless, rfl⟩ := toList_eq_ok.mp lists
    have found := at?_slotsOf (s.slots.map Prod.snd) 0 position
    rw [← slots_eq_slotsOf ascending gapless, Nat.zero_add] at found
    exact found.symm
  · intro same
    have slots : s = ⟨slotsOf items 0⟩ := by
      refine ext_at? ascending (pairwise_slotsOf items 0) fun position => ?_
      rw [← same, ← at?_slotsOf items 0 position, Nat.zero_add]
    rw [slots, toList_slotsOf]

/-- The length is that of the list up to the highest position, for all lists that fit into a word. -/
theorem length_eq_iff {s : SparseList α} {count : Nat} (fits : count + 1 < Word.bound) :
    s.length = count ↔ ∀ last, s.highest? = some last ↔ last + 1 = count := by
  unfold length
  cases s.highest? with
  | none =>
    constructor
    · rintro rfl last
      exact iff_of_false nofun (Nat.succ_ne_zero last)
    · intro highest
      cases count with
      | zero => rfl
      | succ last => exact nomatch (highest last).mpr rfl
  | some position =>
    constructor
    · intro same last
      rw [Option.some.injEq]
      dsimp only at same
      omega
    · intro highest
      have top := (highest position).mp rfl
      dsimp only
      omega

end Listing

section Writes

/-- The sparse list that writes make of the empty one, in their order. -/
def ofWrites (writes : List (Nat × α)) : SparseList α :=
  writes.foldl (fun s write => s.set write.1 write.2) empty

/-- The value that was written last at a position. -/
def lastWritten? (position : Nat) (writes : List (Nat × α)) : Option α :=
  (writes.reverse.find? fun write => write.1 = position).map Prod.snd

theorem ofWrites_concat (writes : List (Nat × α)) (write : Nat × α) :
    ofWrites (writes ++ [write]) = (ofWrites writes).set write.1 write.2 := by
  rw [ofWrites, List.foldl_append]
  rfl

theorem lastWritten?_concat (position : Nat) (writes : List (Nat × α)) (write : Nat × α) :
    lastWritten? position (writes ++ [write])
      = if position = write.1 then some write.2 else lastWritten? position writes := by
  unfold lastWritten?
  rw [List.reverse_concat]
  by_cases here : write.1 = position
  · simp [here]
  · rw [List.find?_cons_of_neg (by simpa using here), if_neg (Ne.symm here)]

theorem lastWritten?_cons (position : Nat) (write : Nat × α) (writes : List (Nat × α)) :
    lastWritten? position (write :: writes)
      = (lastWritten? position writes).or (if write.1 = position then some write.2 else none) := by
  unfold lastWritten?
  rw [List.reverse_cons, List.find?_append, Option.map_or]
  by_cases here : write.1 = position
  · simp [here]
  · simp [here]

/-- Writes at ascending positions fill the slots in turn. -/
theorem ofWrites_slots {slots : List (Nat × α)}
    (ascending : (⟨slots⟩ : SparseList α).Ascending) : ofWrites slots = ⟨slots⟩ := by
  unfold Ascending at ascending
  induction slots using List.reverseRecOn with
  | nil => rfl
  | append_singleton slots slot ih =>
    rw [List.pairwise_append] at ascending
    rw [ofWrites_concat, ih ascending.1]
    exact set_append slot.2 fun other member => ascending.2.2 other member slot List.mem_cons_self

variable (writes : List (Nat × α))

theorem ascending_ofWrites : (ofWrites writes).Ascending := by
  induction writes using List.reverseRecOn with
  | nil => exact List.Pairwise.nil
  | append_singleton writes write ih =>
    rw [ofWrites_concat]
    exact ascending_set ih write.1 write.2

/-- Every slot was written. -/
theorem mem_of_mem_ofWrites {slot : Nat × α} (member : slot ∈ (ofWrites writes).slots) :
    slot ∈ writes := by
  induction writes using List.reverseRecOn with
  | nil => cases member
  | append_singleton writes write ih =>
    rw [ofWrites_concat] at member
    rcases mem_setSlot member with rfl | before
    · exact List.mem_append_right _ (List.mem_singleton_self _)
    · exact List.mem_append_left _ (ih before)

/-- Of the values for one position the last counts. -/
theorem at?_ofWrites (position : Nat) :
    (ofWrites writes).at? position = lastWritten? position writes := by
  induction writes using List.reverseRecOn with
  | nil => rfl
  | append_singleton writes write ih => rw [ofWrites_concat, lastWritten?_concat, at?_set, ih]

theorem mem_positions_ofWrites {position : Nat} :
    position ∈ (ofWrites writes).slots.map Prod.fst ↔ position ∈ writes.map Prod.fst := by
  rw [mem_slots_positions, at?_ofWrites, lastWritten?, Option.isSome_map, List.find?_isSome,
    List.mem_map]
  simp

theorem highest?_ofWrites : (ofWrites writes).highest? = (writes.map Prod.fst).max? :=
  highest?_of_positions (ascending_ofWrites writes) fun _ => mem_positions_ofWrites writes

/-- A position that was written several times is one slot. -/
theorem size_ofWrites : (ofWrites writes).size = (writes.map Prod.fst).dedup.length :=
  size_of_positions (ascending_ofWrites writes) fun _ => mem_positions_ofWrites writes

end Writes

section Entries

/-- The writes that a mapping stands for: its values at the positions of its tokens. -/
def writesOf (m : Mapping α) : List (Nat × α) :=
  m.filterMap fun e => (Position.ofToken? e.1).map fun position => (position, e.2)

theorem ofEntries_eq (m : Mapping α) : ofEntries m = ofWrites (writesOf m) := by
  unfold ofWrites writesOf ofEntries
  rw [List.foldl_filterMap]
  congr 1
  funext s e
  cases Position.ofToken? e.1 <;> rfl

theorem mem_writesOf {m : Mapping α} {write : Nat × α} :
    write ∈ writesOf m ↔ ∃ e ∈ m, Position.ofToken? e.1 = some write.1 ∧ e.2 = write.2 := by
  unfold writesOf
  rw [List.mem_filterMap]
  refine exists_congr fun e => and_congr_right fun _ => ?_
  rw [Option.map_eq_some_iff]
  constructor
  · rintro ⟨position, token, rfl⟩
    exact ⟨token, rfl⟩
  · rintro ⟨token, value⟩
    exact ⟨write.1, token, Prod.ext rfl value⟩

theorem ascending_ofEntries (m : Mapping α) : (ofEntries m).Ascending := by
  rw [ofEntries_eq]
  exact ascending_ofWrites _

/-- All values of a sparse list come from the mapping that it was made of. -/
theorem mem_ofEntries {m : Mapping α} {slot : Nat × α} (member : slot ∈ (ofEntries m).slots) :
    ∃ e ∈ m, e.2 = slot.2 := by
  rw [ofEntries_eq] at member
  obtain ⟨e, among, -, value⟩ := mem_writesOf.mp (mem_of_mem_ofWrites _ member)
  exact ⟨e, among, value⟩

theorem writesOf_toMapping {s : SparseList α} (fits : ∀ slot ∈ s.slots, slot.1 < Word.bound) :
    writesOf s.toMapping = s.slots := by
  unfold writesOf toMapping
  rw [List.filterMap_map]
  refine (List.filterMap_congr fun slot member => ?_).trans List.filterMap_some
  rw [Function.comp, Position.ofToken?_token (fits slot member)]
  rfl

/-- A sparse list comes back from its mapping if its positions are words. -/
theorem ofEntries_toMapping {s : SparseList α} (ascending : s.Ascending)
    (fits : ∀ slot ∈ s.slots, slot.1 < Word.bound) : ofEntries s.toMapping = s := by
  rw [ofEntries_eq, writesOf_toMapping fits]
  exact ofWrites_slots ascending

theorem ofEntries_ofItems {items : List α} (fits : items.length < Word.bound) :
    ofEntries (Mapping.ofItems items 0) = ⟨slotsOf items 0⟩ := by
  have mapped : Mapping.ofItems items 0 = toMapping ⟨slotsOf items 0⟩ := by
    simp [Mapping.ofItems, toMapping, slotsOf, Function.comp_def]
  rw [mapped]
  refine ofEntries_toMapping (pairwise_slotsOf items 0) fun slot member => ?_
  obtain ⟨⟨a, position⟩, inside, rfl⟩ := List.mem_map.mp member
  have small := (List.mem_zipIdx inside).2.1
  rw [Prod.swap_prod_mk]
  omega

end Entries

end SparseList

end ConfigSweep
