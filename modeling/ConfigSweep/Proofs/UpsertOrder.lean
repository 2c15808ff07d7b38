import ConfigSweep.Proofs.Reading

/-!
# The order of upserts

Upserts under position tokens apply in the order of the positions, others in the order of their
keys. When some keys are moved to the front, the order is kept if and only if, among keys that are
not told apart by their positions, the moved ones were in front already and in the same order.
-/

namespace ConfigSweep

section Stable

variable {α : Type} (rank : α → Nat)

/-- Sorting keeps the order of items of one rank. -/
theorem filter_mergeSort (xs : List α) (n : Nat) :
    (xs.mergeSort fun a b => rank a ≤ rank b).filter (rank · == n) = xs.filter (rank · == n) := by
  have sorted : (xs.filter (rank · == n)).Pairwise fun a b => decide (rank a ≤ rank b) = true := by
    refine List.pairwise_of_forall_mem_list fun a first b second => ?_
    have rankA := (List.mem_filter.mp first).2
    have rankB := (List.mem_filter.mp second).2
    rw [beq_iff_eq] at rankA rankB
    simp [rankA, rankB]
  have inside : (xs.filter (rank · == n)).Sublist (xs.mergeSort fun a b => rank a ≤ rank b) := by
    refine List.sublist_mergeSort ?_ ?_ sorted List.filter_sublist
    · intro a b c first second
      rw [decide_eq_true_eq] at first second ⊢
      omega
    · intro a b
      rw [Bool.or_eq_true, decide_eq_true_eq, decide_eq_true_eq]
      omega
  have within := inside.filter (rank · == n)
  rw [List.filter_filter] at within
  simp only [Bool.and_self] at within
  have perm := (List.mergeSort_perm xs fun a b => rank a ≤ rank b).filter (rank · == n)
  exact (within.eq_of_length perm.length_eq.symm).symm

theorem mem_iff_of_filter_eq {xs ys : List α}
    (same : ∀ n, xs.filter (rank · == n) = ys.filter (rank · == n)) (a : α) : a ∈ xs ↔ a ∈ ys := by
  have left : a ∈ xs ↔ a ∈ xs.filter (rank · == rank a) := by simp
  have right : a ∈ ys ↔ a ∈ ys.filter (rank · == rank a) := by simp
  rw [left, same, ← right]

/-- Lists in ascending order are equal when they list the same items of every rank. -/
theorem eq_of_filter_eq {xs ys : List α} (ascX : xs.Pairwise fun a b => rank a ≤ rank b)
    (ascY : ys.Pairwise fun a b => rank a ≤ rank b)
    (same : ∀ n, xs.filter (rank · == n) = ys.filter (rank · == n)) : xs = ys := by
  have members := mem_iff_of_filter_eq rank same
  induction xs generalizing ys with
  | nil =>
    cases ys with
    | nil => rfl
    | cons y ys => simpa using members y
  | cons x xs ih =>
    cases ys with
    | nil => simpa using members x
    | cons y ys =>
      rw [List.pairwise_cons] at ascX ascY
      have below : rank x ≤ rank y := by
        rcases List.mem_cons.mp ((members y).mpr List.mem_cons_self) with rfl | later
        · exact Nat.le_refl _
        · exact ascX.1 y later
      have above : rank y ≤ rank x := by
        rcases List.mem_cons.mp ((members x).mp List.mem_cons_self) with rfl | later
        · exact Nat.le_refl _
        · exact ascY.1 x later
      have ranks : rank x = rank y := by omega
      have first := same (rank x)
      rw [List.filter_cons_of_pos (by simp), List.filter_cons_of_pos (by simp [ranks]),
        List.cons.injEq] at first
      have rest : ∀ n, xs.filter (rank · == n) = ys.filter (rank · == n) := by
        intro n
        have whole := same n
        by_cases here : rank x = n
        · rw [List.filter_cons_of_pos (by simpa using here),
            List.filter_cons_of_pos (by simpa [← ranks] using here), List.cons.injEq] at whole
          exact whole.2
        · rwa [List.filter_cons_of_neg (by simpa using here),
            List.filter_cons_of_neg (by simpa [← ranks] using here)] at whole
      rw [first.1, ih ascX.2 ascY.2 rest (mem_iff_of_filter_eq rank rest)]

theorem ascending_mergeSort {κ : Type} [LE κ] [DecidableLE κ] [Std.IsLinearPreorder κ] (rank : α → κ)
    (xs : List α) : (xs.mergeSort fun a b => rank a ≤ rank b).Pairwise fun a b => rank a ≤ rank b := by
  have sorted : (xs.mergeSort fun a b => rank a ≤ rank b).Pairwise
      fun a b => decide (rank a ≤ rank b) = true := by
    apply List.pairwise_mergeSort
    · intro a b c first second
      rw [decide_eq_true_eq] at first second ⊢
      exact Std.le_trans first second
    · intro a b
      rw [Bool.or_eq_true, decide_eq_true_eq, decide_eq_true_eq]
      exact Std.le_total
  exact sorted.imp of_decide_eq_true

/-- Lists are sorted to the same list when they list the same items of every rank. -/
theorem mergeSort_eq_iff {xs ys : List α} :
    (xs.mergeSort fun a b => rank a ≤ rank b) = (ys.mergeSort fun a b => rank a ≤ rank b) ↔
      ∀ n, xs.filter (rank · == n) = ys.filter (rank · == n) := by
  constructor
  · intro same n
    have filtered := congrArg (List.filter (rank · == n)) same
    rwa [filter_mergeSort, filter_mergeSort] at filtered
  · intro same
    refine eq_of_filter_eq rank (ascending_mergeSort rank xs) (ascending_mergeSort rank ys) fun n => ?_
    rw [filter_mergeSort, filter_mergeSort]
    exact same n

end Stable

/-- The position that a key stands for, zero for other keys. -/
def Position.rank (key : String) : Nat :=
  (Position.ofToken? key).getD 0

/-- The keys of upserts in the order in which they apply. -/
def upsertOrder (keys : List String) : List String :=
  if keys.all Position.isToken then keys.mergeSort fun a b => Position.rank a ≤ Position.rank b
  else keys

theorem keys_orderUpserts (named : Mapping Patch) :
    (Patch.orderUpserts named).map Prod.fst = (upsertOrder (Mapping.keys named)).map some := by
  have sorted : (named.mergeSort fun a b => Position.rank a.1 ≤ Position.rank b.1).map Prod.fst
      = (Mapping.keys named).mergeSort fun a b => Position.rank a ≤ Position.rank b :=
    List.map_mergeSort fun a _ b _ => rfl
  unfold Patch.orderUpserts upsertOrder
  rw [Mapping.isPositional_eq]
  cases named with
  | nil => simp
  | cons e rest =>
    rw [Mapping.keys_cons, List.isEmpty_cons, Bool.not_false, Bool.true_and, List.map_map]
    split
    · rw [← Mapping.keys_cons, ← sorted, List.map_map]
      rfl
    · simp [Mapping.keys]

/-- Keys with some of them moved to the front, in the order of their first mention. -/
def moveToFront (moved keys : List String) : List String :=
  moved.eraseDups ++ keys.filter (· ∉ moved)

/-- Moving keys to the front keeps the order of upserts. -/
def OrderKept (moved keys : List String) : Prop :=
  if keys.all Position.isToken then
    ∀ n, moved.eraseDups.filter (Position.rank · == n) <+: keys.filter (Position.rank · == n)
  else moved.eraseDups <+: keys

section Moving

variable {moved keys : List String}

/-- Moving items to the front changes nothing exactly when they are in front. -/
theorem append_filter_eq_iff {front whole : List String} (unique : whole.Nodup) :
    front ++ whole.filter (· ∉ front) = whole ↔ front <+: whole := by
  constructor
  · intro same
    rw [← same]
    exact List.prefix_append front _
  · rintro ⟨rest, rfl⟩
    have disjoint : ∀ a ∈ rest, a ∉ front := by
      intro a later first
      exact (List.nodup_append.mp unique).2.2 a first a later rfl
    rw [List.filter_append, List.filter_eq_nil_iff.mpr (by simp), List.nil_append,
      List.filter_eq_self.mpr (by simpa using disjoint)]

theorem moveToFront_eq (moved keys : List String) :
    moveToFront moved keys = moved.eraseDups ++ keys.filter (· ∉ moved.eraseDups) := by
  unfold moveToFront
  simp only [List.mem_eraseDups]

theorem moveToFront_perm (unique : keys.Nodup) (known : ∀ key ∈ moved, key ∈ keys) :
    (moveToFront moved keys).Perm keys := by
  have once : (moveToFront moved keys).Nodup := by
    rw [moveToFront_eq, List.nodup_append]
    refine ⟨Mapping.nodup_eraseDups moved, unique.filter _, ?_⟩
    rintro a first b second rfl
    simpa [first] using (List.mem_filter.mp second).2
  refine (List.perm_ext_iff_of_nodup once unique).mpr fun key => ?_
  rw [moveToFront, List.mem_append, List.mem_eraseDups, List.mem_filter]
  constructor
  · rintro (first | later)
    · exact known key first
    · exact later.1
  · intro member
    by_cases front : key ∈ moved
    · exact .inl front
    · exact .inr ⟨member, by simpa using front⟩

/-- Moving keys moves the keys of each rank. -/
theorem filter_moveToFront (moved keys : List String) (n : Nat) :
    (moveToFront moved keys).filter (Position.rank · == n)
      = moved.eraseDups.filter (Position.rank · == n)
        ++ (keys.filter (Position.rank · == n)).filter
            (· ∉ moved.eraseDups.filter (Position.rank · == n)) := by
  rw [moveToFront_eq, List.filter_append, List.filter_filter, List.filter_filter]
  congr 1
  refine List.filter_congr fun key _ => ?_
  by_cases here : Position.rank key = n <;> simp [here]

theorem upsertOrder_moveToFront_iff (unique : keys.Nodup) (known : ∀ key ∈ moved, key ∈ keys) :
    upsertOrder (moveToFront moved keys) = upsertOrder keys ↔ OrderKept moved keys := by
  have perm := moveToFront_perm unique known
  have tokens : (moveToFront moved keys).all Position.isToken = keys.all Position.isToken :=
    perm.all_eq
  unfold upsertOrder OrderKept
  rw [tokens]
  split
  · rw [mergeSort_eq_iff]
    refine forall_congr' fun n => ?_
    rw [filter_moveToFront]
    exact append_filter_eq_iff (unique.filter _)
  · rw [moveToFront_eq]
    exact append_filter_eq_iff unique

/-- Keys for different positions can be moved at will. -/
theorem orderKept_of_ranks (tokens : keys.all Position.isToken = true)
    (known : ∀ key ∈ moved, key ∈ keys) (ranks : (keys.map Position.rank).Nodup) :
    OrderKept moved keys := by
  unfold OrderKept
  rw [if_pos tokens]
  intro n
  have ofRank : ∀ key, key ∈ moved.eraseDups.filter (Position.rank · == n) →
      key ∈ keys ∧ Position.rank key = n := by
    intro key member
    obtain ⟨inside, rank⟩ := List.mem_filter.mp member
    exact ⟨known key (List.mem_eraseDups.mp inside), by simpa using rank⟩
  have once := (Mapping.nodup_eraseDups moved).filter (Position.rank · == n)
  cases front : moved.eraseDups.filter (Position.rank · == n) with
  | nil => exact List.nil_prefix
  | cons key others =>
    rw [front] at ofRank once
    obtain ⟨member, rank⟩ := ofRank key List.mem_cons_self
    -- there is one key of this rank only
    have single : ∀ other ∈ keys, Position.rank other = n → other = key := fun other inside same =>
      List.inj_on_of_nodup_map ranks inside member (same.trans rank.symm)
    have alone : others = [] := by
      refine List.eq_nil_iff_forall_not_mem.mpr fun other later => ?_
      obtain ⟨inside, same⟩ := ofRank other (List.mem_cons_of_mem _ later)
      exact (List.nodup_cons.mp once).1 (single other inside same ▸ later)
    have listed : key ∈ keys.filter (Position.rank · == n) :=
      List.mem_filter.mpr ⟨member, by simpa using rank⟩
    cases whole : keys.filter (Position.rank · == n) with
    | nil => rw [whole] at listed; cases listed
    | cons first more =>
      have head : first ∈ keys.filter (Position.rank · == n) := whole ▸ List.mem_cons_self
      obtain ⟨inside, same⟩ := List.mem_filter.mp head
      rw [alone, single first inside (by simpa using same)]
      exact ⟨more, rfl⟩

end Moving

end ConfigSweep
